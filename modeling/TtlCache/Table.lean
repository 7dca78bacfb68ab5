/-!
# Finite tables

A table is a list of rows in which no key comes twice.  Rows keep the order in which their keys
were first inserted; replacing a value leaves its row in place.  What a table means is given by
`get?` and `keys`; the lemmas below say what each operation does to them.
-/

namespace TtlCache

/-- Rows of keys and values in which every key stands once. -/
structure Table (κ : Type) (α : Type) where
  rows : List (κ × α)
  distinct : (rows.map Prod.fst).Nodup

namespace Table

variable {κ α : Type}

def empty : Table κ α := ⟨[], List.nodup_nil⟩

instance : Inhabited (Table κ α) := ⟨empty⟩

def keys (t : Table κ α) : List κ := t.rows.map Prod.fst

def size (t : Table κ α) : Nat := t.rows.length

def isEmpty (t : Table κ α) : Bool := t.rows.isEmpty

theorem nodup_keys (t : Table κ α) : t.keys.Nodup := t.distinct

theorem length_keys (t : Table κ α) : t.keys.length = t.size := by
  simp [keys, size]

theorem ext_rows {t u : Table κ α} (h : t.rows = u.rows) : t = u := by
  cases t
  cases u
  cases h
  rfl

@[simp] theorem keys_empty : (empty : Table κ α).keys = [] := by
  rfl

instance [DecidableEq κ] [DecidableEq α] : DecidableEq (Table κ α) := fun t u =>
  decidable_of_iff (t.rows = u.rows) ⟨ext_rows, fun h => by rw [h]⟩

theorem row_unique {rows : List (κ × α)} (h : (rows.map Prod.fst).Nodup) {a b : κ × α}
    (ha : a ∈ rows) (hb : b ∈ rows) (hkey : a.1 = b.1) : a = b := by
  induction rows with
  | nil => cases ha
  | cons row rest ih =>
    rw [List.map_cons, List.nodup_cons] at h
    rcases List.mem_cons.mp ha with hahead | harest
    · rcases List.mem_cons.mp hb with hbhead | hbrest
      · rw [hahead, hbhead]
      · rw [hahead] at hkey
        exact absurd (List.mem_map.mpr ⟨b, hbrest, hkey.symm⟩) h.1
    · rcases List.mem_cons.mp hb with hbhead | hbrest
      · rw [hbhead] at hkey
        exact absurd (List.mem_map.mpr ⟨a, harest, hkey⟩) h.1
      · exact ih h.2 harest hbrest

variable [DecidableEq κ]

def get? (t : Table κ α) (key : κ) : Option α :=
  (t.rows.find? fun row => decide (row.1 = key)).map Prod.snd

def contains (t : Table κ α) (key : κ) : Bool := (t.get? key).isSome

def erase (t : Table κ α) (key : κ) : Table κ α where
  rows := t.rows.filter fun row => !decide (row.1 = key)
  distinct := (List.filter_sublist.map Prod.fst).nodup t.distinct

theorem map_fst_replace (rows : List (κ × α)) (key : κ) (value : α) :
    (rows.map fun row => if row.1 = key then (row.1, value) else row).map Prod.fst =
      rows.map Prod.fst := by
  rw [List.map_map]
  apply List.map_congr_left
  intro row _
  by_cases h : row.1 = key
  · simp [h]
  · simp [h]

/-- Gives `key` the value `value`: in its row if it has one, in a new last row otherwise. -/
def insert (t : Table κ α) (key : κ) (value : α) : Table κ α :=
  if h : key ∈ t.keys then
    { rows := t.rows.map fun row => if row.1 = key then (row.1, value) else row
      distinct := by
        rw [map_fst_replace]
        exact t.distinct }
  else
    { rows := t.rows ++ [(key, value)]
      distinct := by
        rw [List.map_append, List.nodup_append]
        refine ⟨t.distinct, by simp, ?_⟩
        intro a ha b hb heq
        simp only [List.map_cons, List.map_nil, List.mem_singleton] at hb
        exact h (hb ▸ heq ▸ ha) }

def modify (t : Table κ α) (key : κ) (change : α -> α) : Table κ α :=
  match t.get? key with
  | some value => t.insert key (change value)
  | none => t

/-! ## Lookup -/

theorem find?_eq_none_of_notMem {rows : List (κ × α)} {key : κ}
    (h : key ∉ rows.map Prod.fst) :
    (rows.find? fun row => decide (row.1 = key)) = none := by
  rw [List.find?_eq_none]
  intro row hrow heq
  exact h (List.mem_map.mpr ⟨row, hrow, of_decide_eq_true heq⟩)

@[simp] theorem get?_empty (key : κ) : (empty : Table κ α).get? key = none := by
  rfl

theorem get?_eq_none_iff {t : Table κ α} {key : κ} : t.get? key = none ↔ key ∉ t.keys := by
  constructor
  · intro h hmem
    obtain ⟨row, hrow, heq⟩ := List.mem_map.mp hmem
    have hnone := Option.map_eq_none_iff.mp h
    rw [List.find?_eq_none] at hnone
    exact hnone row hrow (decide_eq_true heq)
  · intro h
    exact Option.map_eq_none_iff.mpr (find?_eq_none_of_notMem h)

theorem mem_keys_iff {t : Table κ α} {key : κ} : key ∈ t.keys ↔ (t.get? key).isSome := by
  rw [← Option.ne_none_iff_isSome, Ne, get?_eq_none_iff, Decidable.not_not]

theorem get?_eq_some_iff {t : Table κ α} {key : κ} {value : α} :
    t.get? key = some value ↔ (key, value) ∈ t.rows := by
  constructor
  · intro h
    obtain ⟨row, hrow, hvalue⟩ := Option.map_eq_some_iff.mp h
    have hkey : row.1 = key := by
      simpa using List.find?_some hrow
    have hmem := List.mem_of_find?_eq_some hrow
    rw [← hkey, ← hvalue]
    exact hmem
  · intro hmem
    cases hfind : t.get? key with
    | none =>
      exact absurd (List.mem_map.mpr ⟨_, hmem, rfl⟩) (get?_eq_none_iff.mp hfind)
    | some other =>
      obtain ⟨row, hrow, hvalue⟩ := Option.map_eq_some_iff.mp hfind
      have hkey : row.1 = key := by
        simpa using List.find?_some hrow
      have hrowMem := List.mem_of_find?_eq_some hrow
      rw [← hvalue, row_unique t.distinct hrowMem hmem hkey]

/-! ## Operations and their lookups -/

theorem rows_insert_of_mem {t : Table κ α} {key : κ} (h : key ∈ t.keys) (value : α) :
    (t.insert key value).rows =
      t.rows.map fun row => if row.1 = key then (row.1, value) else row := by
  rw [insert, dif_pos h]

theorem rows_insert_of_notMem {t : Table κ α} {key : κ} (h : key ∉ t.keys) (value : α) :
    (t.insert key value).rows = t.rows ++ [(key, value)] := by
  rw [insert, dif_neg h]

theorem keys_insert_of_mem {t : Table κ α} {key : κ} (h : key ∈ t.keys) (value : α) :
    (t.insert key value).keys = t.keys := by
  rw [keys, rows_insert_of_mem h, map_fst_replace, keys]

theorem keys_insert_of_notMem {t : Table κ α} {key : κ} (h : key ∉ t.keys) (value : α) :
    (t.insert key value).keys = t.keys ++ [key] := by
  rw [keys, rows_insert_of_notMem h, List.map_append, keys]
  rfl

theorem keys_erase (t : Table κ α) (key : κ) :
    (t.erase key).keys = t.keys.filter fun k => !decide (k = key) := by
  simp only [erase, keys, List.filter_map]
  rfl

theorem mem_keys_insert {t : Table κ α} {key k : κ} {value : α} :
    k ∈ (t.insert key value).keys ↔ k = key ∨ k ∈ t.keys := by
  by_cases h : key ∈ t.keys
  · rw [keys_insert_of_mem h]
    constructor
    · exact Or.inr
    · rintro (rfl | hk)
      · exact h
      · exact hk
  · rw [keys_insert_of_notMem h, List.mem_append, List.mem_singleton]
    exact Or.comm

theorem mem_keys_erase {t : Table κ α} {key k : κ} :
    k ∈ (t.erase key).keys ↔ k ≠ key ∧ k ∈ t.keys := by
  rw [keys_erase, List.mem_filter]
  simp [and_comm]

theorem get?_insert (t : Table κ α) (key k : κ) (value : α) :
    (t.insert key value).get? k = if k = key then some value else t.get? k := by
  by_cases hk : k = key
  · subst hk
    rw [if_pos rfl, get?_eq_some_iff]
    by_cases h : k ∈ t.keys
    · obtain ⟨row, hrow, heq⟩ := List.mem_map.mp h
      rw [rows_insert_of_mem h]
      exact List.mem_map.mpr ⟨row, hrow, by simp [heq]⟩
    · rw [rows_insert_of_notMem h]
      simp
  · rw [if_neg hk]
    apply Option.ext
    intro other
    rw [get?_eq_some_iff, get?_eq_some_iff]
    by_cases h : key ∈ t.keys
    · rw [rows_insert_of_mem h, List.mem_map]
      constructor
      · rintro ⟨row, hrow, heq⟩
        by_cases hkey : row.1 = key
        · rw [if_pos hkey] at heq
          exact absurd ((congrArg Prod.fst heq).symm.trans hkey) hk
        · rw [if_neg hkey] at heq
          exact heq ▸ hrow
      · intro hrow
        exact ⟨_, hrow, by simp [hk]⟩
    · rw [rows_insert_of_notMem h]
      simp [hk]

theorem get?_erase (t : Table κ α) (key k : κ) :
    (t.erase key).get? k = if k = key then none else t.get? k := by
  by_cases hk : k = key
  · subst hk
    rw [if_pos rfl, get?_eq_none_iff, mem_keys_erase]
    exact fun h => h.1 rfl
  · rw [if_neg hk]
    apply Option.ext
    intro other
    rw [get?_eq_some_iff, get?_eq_some_iff]
    simp [erase, hk]

theorem get?_modify (t : Table κ α) (key k : κ) (change : α -> α) :
    (t.modify key change).get? k = if k = key then (t.get? key).map change else t.get? k := by
  unfold modify
  cases h : t.get? key with
  | none =>
    by_cases hk : k = key
    · simp [hk, h]
    · simp [hk]
  | some value =>
    simp only [get?_insert, Option.map_some]

theorem rows_modify (t : Table κ α) (key : κ) (change : α -> α) :
    (t.modify key change).rows =
      t.rows.map fun row => if row.1 = key then (row.1, change row.2) else row := by
  unfold modify
  cases h : t.get? key with
  | none =>
    rw [List.map_congr_left (g := id), List.map_id]
    intro row hrow
    exact if_neg fun heq => get?_eq_none_iff.mp h (List.mem_map.mpr ⟨row, hrow, heq⟩)
  | some value =>
    simp only
    rw [rows_insert_of_mem (mem_keys_iff.mpr (by rw [h]; rfl))]
    apply List.map_congr_left
    intro row hrow
    by_cases hkey : row.1 = key
    · have hsame : t.get? key = some row.2 := get?_eq_some_iff.mpr (hkey ▸ hrow)
      rw [h] at hsame
      rw [if_pos hkey, if_pos hkey, Option.some.inj hsame]
    · rw [if_neg hkey, if_neg hkey]

/-! ## Rows around a key -/

theorem rows_split {t : Table κ α} {key : κ} {value : α} (h : t.get? key = some value) :
    ∃ before after, t.rows = before ++ (key, value) :: after ∧
      (∀ row ∈ before, row.1 ≠ key) ∧ (∀ row ∈ after, row.1 ≠ key) := by
  obtain ⟨before, after, hrows⟩ := List.append_of_mem (get?_eq_some_iff.mp h)
  have hdistinct := t.distinct
  rw [hrows, List.map_append, List.map_cons, List.nodup_append, List.nodup_cons] at hdistinct
  obtain ⟨-, ⟨hafter, -⟩, hbefore⟩ := hdistinct
  refine ⟨before, after, hrows, ?_, ?_⟩
  · intro row hrow heq
    exact hbefore row.1 (List.mem_map_of_mem hrow) key List.mem_cons_self heq
  · intro row hrow heq
    exact hafter (List.mem_map.mpr ⟨row, hrow, heq⟩)

theorem rows_erase_of_split {t : Table κ α} {key : κ} {value : α} {before after : List (κ × α)}
    (hrows : t.rows = before ++ (key, value) :: after) (hbefore : ∀ row ∈ before, row.1 ≠ key)
    (hafter : ∀ row ∈ after, row.1 ≠ key) : (t.erase key).rows = before ++ after := by
  have keep : ∀ rows : List (κ × α), (∀ row ∈ rows, row.1 ≠ key) ->
      (rows.filter fun row => !decide (row.1 = key)) = rows := by
    intro rows h
    rw [List.filter_eq_self]
    intro row hrow
    simp [h row hrow]
  simp only [erase, hrows, List.filter_append, keep before hbefore]
  rw [List.filter_cons_of_neg (by simp), keep after hafter]

theorem rows_insert_of_split {t : Table κ α} {key : κ} {old : α} {before after : List (κ × α)}
    (hrows : t.rows = before ++ (key, old) :: after) (hbefore : ∀ row ∈ before, row.1 ≠ key)
    (hafter : ∀ row ∈ after, row.1 ≠ key) (value : α) :
    (t.insert key value).rows = before ++ (key, value) :: after := by
  have keep : ∀ rows : List (κ × α), (∀ row ∈ rows, row.1 ≠ key) ->
      (rows.map fun row => if row.1 = key then (row.1, value) else row) = rows := by
    intro rows h
    rw [List.map_congr_left (g := id), List.map_id]
    intro row hrow
    simp [h row hrow]
  have hmem : key ∈ t.keys := by
    rw [mem_keys_iff, get?_eq_some_iff.mpr (by rw [hrows]; simp : (key, old) ∈ t.rows)]
    rfl
  rw [rows_insert_of_mem hmem, hrows, List.map_append, List.map_cons, keep before hbefore,
    keep after hafter, if_pos rfl]

/-! ## Counting rows -/

theorem countP_insert_of_notMem {t : Table κ α} {key : κ} (h : key ∉ t.keys) (value : α)
    (p : κ × α -> Bool) :
    (t.insert key value).rows.countP p =
      t.rows.countP p + if p (key, value) then 1 else 0 := by
  rw [rows_insert_of_notMem h, List.countP_append, List.countP_singleton]

theorem countP_insert_of_get? {t : Table κ α} {key : κ} {old : α} (h : t.get? key = some old)
    (value : α) (p : κ × α -> Bool) :
    ((t.insert key value).rows.countP p + if p (key, old) then 1 else 0) =
      t.rows.countP p + if p (key, value) then 1 else 0 := by
  obtain ⟨before, after, hrows, hbefore, hafter⟩ := rows_split h
  rw [rows_insert_of_split hrows hbefore hafter, hrows]
  simp only [List.countP_append, List.countP_cons]
  omega

theorem countP_erase_of_get? {t : Table κ α} {key : κ} {value : α} (h : t.get? key = some value)
    (p : κ × α -> Bool) :
    ((t.erase key).rows.countP p + if p (key, value) then 1 else 0) = t.rows.countP p := by
  obtain ⟨before, after, hrows, hbefore, hafter⟩ := rows_split h
  rw [rows_erase_of_split hrows hbefore hafter, hrows]
  simp only [List.countP_append, List.countP_cons]
  omega

end Table

end TtlCache
