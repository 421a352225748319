import Mathlib.Data.List.Pairwise
import Mathlib.Order.RelIso.Basic

/-!
# Ordered maps

A map kept as the list of its entries in the order of their keys, which is how a balanced search
tree is seen from outside: iteration is in key order, the first entry is the best one, and an
operation at a key leaves the entries on both sides of it alone. The order is part of the value, so
a map out of order cannot be built.

What a proof needs of an operation is where it acts. `put_split` and `erase_split` say so for a key
that is present, `exists_put_new` for a key that is absent.
-/

structure OrderedMap (κ ν : Type*) (lt : κ → κ → Prop) where
  entries : List (κ × ν)
  sorted : entries.Pairwise fun a b => lt a.1 b.1

namespace OrderedMap

variable {κ ν : Type*} {lt : κ → κ → Prop}

@[ext] theorem ext {m₁ m₂ : OrderedMap κ ν lt} (h : m₁.entries = m₂.entries) : m₁ = m₂ := by
  cases m₁
  cases m₂
  cases h
  rfl

instance [DecidableEq κ] [DecidableEq ν] : DecidableEq (OrderedMap κ ν lt) := fun m₁ m₂ =>
  decidable_of_iff (m₁.entries = m₂.entries) ⟨ext, fun h => h ▸ rfl⟩

def empty : OrderedMap κ ν lt := ⟨[], List.Pairwise.nil⟩

instance : EmptyCollection (OrderedMap κ ν lt) := ⟨empty⟩

def keys (m : OrderedMap κ ν lt) : List κ := m.entries.map Prod.fst

/-- The entry at the front of the order. -/
def first? (m : OrderedMap κ ν lt) : Option (κ × ν) := m.entries.head?

def eraseFirst (m : OrderedMap κ ν lt) : OrderedMap κ ν lt := ⟨m.entries.tail, m.sorted.tail⟩

@[simp] theorem entries_eraseFirst (m : OrderedMap κ ν lt) :
    m.eraseFirst.entries = m.entries.tail := rfl

section Lookup

variable [DecidableEq κ]

def find? (m : OrderedMap κ ν lt) (k : κ) : Option ν :=
  (m.entries.find? fun e => e.1 = k).map Prod.snd

def erase (m : OrderedMap κ ν lt) (k : κ) : OrderedMap κ ν lt :=
  ⟨m.entries.filter fun e => e.1 ≠ k, m.sorted.filter _⟩

theorem exists_split_of_find? {m : OrderedMap κ ν lt} {k : κ} {v : ν} (h : m.find? k = some v) :
    ∃ before after, m.entries = before ++ (k, v) :: after := by
  obtain ⟨e, hfind, rfl⟩ := Option.map_eq_some_iff.mp h
  obtain ⟨hkey, before, after, hsplit, -⟩ := List.find?_eq_some_iff_append.mp hfind
  have hkey : e.1 = k := by simpa using hkey
  exact ⟨before, after, by rw [hsplit, ← hkey]⟩

theorem find?_eq_none_iff {m : OrderedMap κ ν lt} {k : κ} : m.find? k = none ↔ ∀ e ∈ m.entries, e.1 ≠ k := by
  simp [find?]

end Lookup

section Put

/-- Entries with the value at a key replaced, or entered at the key's place. -/
def putEntries (lt : κ → κ → Prop) [DecidableRel lt] (k : κ) (v : ν) : List (κ × ν) → List (κ × ν)
  | [] => [(k, v)]
  | e :: es =>
    if lt k e.1 then (k, v) :: e :: es
    else if lt e.1 k then e :: putEntries lt k v es
    else (k, v) :: es

variable [DecidableRel lt]

theorem mem_putEntries {k : κ} {v : ν} {e : κ × ν} {es : List (κ × ν)}
    (h : e ∈ putEntries lt k v es) : e = (k, v) ∨ e ∈ es := by
  induction es with
  | nil => simpa [putEntries] using h
  | cons d ds ih =>
    rw [putEntries] at h
    split at h
    · simpa using h
    · split at h
      · rcases List.mem_cons.mp h with rfl | hd
        · exact Or.inr (List.mem_cons_self ..)
        · exact (ih hd).imp_right (List.mem_cons_of_mem _)
      · rcases List.mem_cons.mp h with rfl | hd
        · exact Or.inl rfl
        · exact Or.inr (List.mem_cons_of_mem _ hd)

theorem pairwise_putEntries [IsStrictTotalOrder κ lt] {k : κ} {v : ν} {es : List (κ × ν)}
    (h : es.Pairwise fun a b => lt a.1 b.1) :
    (putEntries lt k v es).Pairwise fun a b => lt a.1 b.1 := by
  induction es with
  | nil => simp [putEntries]
  | cons d ds ih =>
    obtain ⟨hd, hds⟩ := List.pairwise_cons.mp h
    rw [putEntries]
    split
    case isTrue hlt =>
      refine List.pairwise_cons.mpr ⟨fun e he => ?_, h⟩
      rcases List.mem_cons.mp he with rfl | he
      · exact hlt
      · exact trans_of lt hlt (hd e he)
    case isFalse hnlt =>
      split
      case isTrue hgt =>
        refine List.pairwise_cons.mpr ⟨fun e he => ?_, ih hds⟩
        rcases mem_putEntries he with rfl | he
        · exact hgt
        · exact hd e he
      case isFalse hngt =>
        have heq : k = d.1 := by
          rcases trichotomous_of lt k d.1 with hlt | heq | hgt
          · exact absurd hlt hnlt
          · exact heq
          · exact absurd hgt hngt
        refine List.pairwise_cons.mpr ⟨fun e he => ?_, hds⟩
        simpa only [heq] using hd e he

/-- Assign a value at a key, entering the key if it is absent. -/
def put [IsStrictTotalOrder κ lt] (m : OrderedMap κ ν lt) (k : κ) (v : ν) : OrderedMap κ ν lt :=
  ⟨putEntries lt k v m.entries, pairwise_putEntries m.sorted⟩

end Put

section Split

variable {m : OrderedMap κ ν lt} {k : κ} {v w : ν} {before after : List (κ × ν)}

/-- Around an entry, the keys in front are smaller and the keys behind are larger. -/
theorem sorted_split (h : m.entries = before ++ (k, v) :: after) :
    (∀ e ∈ before, lt e.1 k) ∧ (∀ e ∈ after, lt k e.1) := by
  have hsorted := m.sorted
  rw [h, List.pairwise_append] at hsorted
  exact ⟨fun e he => hsorted.2.2 e he (k, v) (List.mem_cons_self ..),
    (List.pairwise_cons.mp hsorted.2.1).1⟩

variable [IsStrictTotalOrder κ lt]

theorem not_lt_self (lt : κ → κ → Prop) [IsStrictTotalOrder κ lt] (k : κ) : ¬ lt k k := irrefl_of lt k

theorem ne_of_split (h : m.entries = before ++ (k, v) :: after) :
    (∀ e ∈ before, e.1 ≠ k) ∧ (∀ e ∈ after, e.1 ≠ k) := by
  obtain ⟨hbefore, hafter⟩ := sorted_split h
  constructor
  · intro e he heq
    exact not_lt_self lt k (heq ▸ hbefore e he)
  · intro e he heq
    exact not_lt_self lt k (heq ▸ hafter e he)

theorem keys_nodup (m : OrderedMap κ ν lt) : (m.entries.map Prod.fst).Nodup := by
  rw [List.Nodup, List.pairwise_map]
  apply m.sorted.imp
  intro a b hlt heq
  exact not_lt_self lt _ (heq ▸ hlt)

section

variable [DecidableEq κ]

theorem find?_split (h : m.entries = before ++ (k, v) :: after) : m.find? k = some v := by
  have hbefore : before.find? (fun e => e.1 = k) = none := by
    rw [List.find?_eq_none]
    intro e he
    simpa using (ne_of_split h).1 e he
  simp [find?, h, List.find?_append, hbefore]

theorem erase_split (h : m.entries = before ++ (k, v) :: after) :
    (m.erase k).entries = before ++ after := by
  obtain ⟨hbefore, hafter⟩ := ne_of_split h
  have hfilter : ∀ es : List (κ × ν), (∀ e ∈ es, e.1 ≠ k) → es.filter (fun e => e.1 ≠ k) = es :=
    fun es hes => List.filter_eq_self.mpr fun e he => by simpa using hes e he
  simp only [erase, h, List.filter_append, List.filter_cons, hfilter before hbefore,
    hfilter after hafter]
  simp

end

variable [DecidableRel lt]

theorem put_split (h : m.entries = before ++ (k, v) :: after) :
    (m.put k w).entries = before ++ (k, w) :: after := by
  obtain ⟨hbefore, -⟩ := sorted_split h
  change putEntries lt k w m.entries = _
  rw [h]
  clear h
  induction before with
  | nil => simp [putEntries, not_lt_self lt k]
  | cons e es ih =>
    have hlt : lt e.1 k := hbefore e (List.mem_cons_self ..)
    have hngt : ¬ lt k e.1 := fun hgt => not_lt_self lt k (trans_of lt hgt hlt)
    rw [List.cons_append, putEntries, if_neg hngt, if_pos hlt,
      ih fun d hd => hbefore d (List.mem_cons_of_mem _ hd)]
    rfl

theorem put_first {entries : List (κ × ν)} (h : m.entries = (k, v) :: entries) :
    (m.put k w).entries = (k, w) :: entries :=
  put_split (show m.entries = [] ++ (k, v) :: entries from h)

/-- A new key is entered between the smaller and the larger ones. -/
theorem exists_put_new (h : ∀ e ∈ m.entries, e.1 ≠ k) :
    ∃ before after, m.entries = before ++ after ∧ (∀ e ∈ before, lt e.1 k) ∧
      (∀ e ∈ after, lt k e.1) ∧ ∀ v, (m.put k v).entries = before ++ (k, v) :: after := by
  obtain ⟨entries, hsorted⟩ := m
  simp only [put] at h ⊢
  induction entries with
  | nil => exact ⟨[], [], rfl, by simp, by simp, fun v => rfl⟩
  | cons e es ih =>
    obtain ⟨he, hes⟩ := List.pairwise_cons.mp hsorted
    by_cases hlt : lt k e.1
    · refine ⟨[], e :: es, rfl, by simp, fun d hd => ?_, fun v => by simp [putEntries, hlt]⟩
      rcases List.mem_cons.mp hd with rfl | hd
      · exact hlt
      · exact trans_of lt hlt (he d hd)
    · have hgt : lt e.1 k := by
        rcases trichotomous_of lt k e.1 with h' | h' | h'
        · exact absurd h' hlt
        · exact absurd h'.symm (h e (List.mem_cons_self ..))
        · exact h'
      obtain ⟨before, after, hsplit, hbefore, hafter, hput⟩ :=
        ih hes fun d hd => h d (List.mem_cons_of_mem _ hd)
      refine ⟨e :: before, after, by rw [hsplit, List.cons_append], fun d hd => ?_, hafter,
        fun v => ?_⟩
      · rcases List.mem_cons.mp hd with rfl | hd
        · exact hgt
        · exact hbefore d hd
      · rw [putEntries, if_neg hlt, if_pos hgt, hput v, List.cons_append]

end Split

/-! ### Renaming the keys -/

section Rename

variable {κ' : Type*} {lt' : κ' → κ' → Prop} (f : lt ↪r lt') (m : OrderedMap κ ν lt)

/-- The keys renamed by a map that keeps their order. -/
def mapKeys : OrderedMap κ' ν lt' where
  entries := m.entries.map (Prod.map f id)
  sorted := List.pairwise_map.mpr (m.sorted.imp f.map_rel_iff.mpr)

theorem first?_mapKeys : (m.mapKeys f).first? = m.first?.map (Prod.map f id) := List.head?_map ..

theorem eraseFirst_mapKeys : (m.mapKeys f).eraseFirst = m.eraseFirst.mapKeys f :=
  ext List.map_tail.symm

section

variable [DecidableEq κ] [DecidableEq κ']

theorem find?_mapKeys (k : κ) : (m.mapKeys f).find? (f k) = m.find? k := by
  have hkey : ((fun e : κ' × ν => decide (e.1 = f k)) ∘ Prod.map f id)
      = fun e : κ × ν => decide (e.1 = k) := by
    funext e
    simp
  rw [find?, find?, mapKeys, List.find?_map, Option.map_map, hkey]
  rfl

theorem erase_mapKeys (k : κ) : (m.mapKeys f).erase (f k) = (m.erase k).mapKeys f := by
  have hkey : ((fun e : κ' × ν => decide (e.1 ≠ f k)) ∘ Prod.map f id)
      = fun e : κ × ν => decide (e.1 ≠ k) := by
    funext e
    simp
  apply ext
  simp only [erase, mapKeys, List.filter_map, hkey]

end

theorem put_mapKeys [IsStrictTotalOrder κ lt] [IsStrictTotalOrder κ' lt'] [DecidableRel lt]
    [DecidableRel lt'] (k : κ) (v : ν) : (m.mapKeys f).put (f k) v = (m.put k v).mapKeys f := by
  apply ext
  change putEntries lt' (f k) v (m.entries.map _) = (putEntries lt k v m.entries).map _
  induction m.entries with
  | nil => rfl
  | cons e es ih =>
    rw [List.map_cons, putEntries, putEntries, ih]
    simp only [Prod.map_fst, f.map_rel_iff]
    split
    · rfl
    · split <;> rfl

end Rename

end OrderedMap
