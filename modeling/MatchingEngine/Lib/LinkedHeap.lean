import Mathlib.Data.List.Nodup
import Mathlib.Data.List.Perm.Subperm
import Mathlib.Data.List.Basic

/-!
# Intrusive doubly linked lists

A heap of records, some of whose fields are the links of a doubly linked list, and the two updates
such a list lives by: entering a record behind the tail and taking one out from anywhere. A pointer
is the index of a record; the null pointer is `none`.

`IsChain h head tail ps` says that the list entered at `head` and left at `tail` runs through exactly
the records `ps`, in that order, and that every link along it is mutual. The updates are then
`IsChain.pushBack` and `IsChain.unlink`, and everything else a program keeps in its records is
carried over by `read_modify` alone.
-/

abbrev Ptr := Nat

/-- Records, at the addresses below the number of allocations. -/
structure Heap (α : Type*) where
  cells : List α
  deriving DecidableEq, Repr

namespace Heap

variable {α β : Type*}

def empty : Heap α := ⟨[]⟩

def size (h : Heap α) : Nat := h.cells.length

def read (h : Heap α) (p : Ptr) : Option α := h.cells[p]?

/-- Update the record at an address; nothing happens at an address not yet allocated. -/
def modify (h : Heap α) (p : Ptr) (f : α → α) : Heap α := ⟨h.cells.modify p f⟩

/-- Place a record at the next address, which is `size`. -/
def alloc (h : Heap α) (a : α) : Heap α := ⟨h.cells ++ [a]⟩

@[simp] theorem size_modify (h : Heap α) (p : Ptr) (f : α → α) : (h.modify p f).size = h.size := by
  simp [size, modify]

@[simp] theorem size_alloc (h : Heap α) (a : α) : (h.alloc a).size = h.size + 1 := by
  simp [size, alloc]

theorem read_modify (h : Heap α) (p q : Ptr) (f : α → α) :
    (h.modify p f).read q = if p = q then (h.read q).map f else h.read q := by
  simp only [read, modify, List.getElem?_modify]
  split <;> simp

@[simp] theorem read_modify_self (h : Heap α) (p : Ptr) (f : α → α) :
    (h.modify p f).read p = (h.read p).map f := by
  rw [read_modify, if_pos rfl]

theorem read_modify_of_ne (h : Heap α) {p q : Ptr} (hne : p ≠ q) (f : α → α) :
    (h.modify p f).read q = h.read q := by
  rw [read_modify, if_neg hne]

/-- A part of the record that the update does not touch reads the same. -/
theorem map_read_modify (h : Heap α) (p q : Ptr) {f : α → α} {g : α → β} (hg : ∀ a, g (f a) = g a) :
    ((h.modify p f).read q).map g = (h.read q).map g := by
  rw [read_modify]
  split
  · simp [Function.comp_def, hg]
  · rfl

theorem lt_size_of_read {h : Heap α} {p : Ptr} {a : α} (hread : h.read p = some a) : p < h.size :=
  (List.getElem?_eq_some_iff.mp hread).1

@[simp] theorem read_alloc_self (h : Heap α) (a : α) : (h.alloc a).read h.size = some a := by
  simp [read, alloc, size]

theorem read_alloc_of_lt (h : Heap α) (a : α) {p : Ptr} (hp : p < h.size) :
    (h.alloc a).read p = h.read p :=
  List.getElem?_append_left hp

/-! ### Every record changed in one way -/

def map (f : α → β) (h : Heap α) : Heap β := ⟨h.cells.map f⟩

@[simp] theorem size_map (f : α → β) (h : Heap α) : (h.map f).size = h.size := List.length_map ..

@[simp] theorem read_map (f : α → β) (h : Heap α) (p : Ptr) : (h.map f).read p = (h.read p).map f :=
  List.getElem?_map ..

theorem modify_map {f : α → β} {g : α → α} {g' : β → β} (hcomm : ∀ a, g' (f a) = f (g a))
    (h : Heap α) (p : Ptr) : (h.map f).modify p g' = (h.modify p g).map f := by
  have hcells : (h.cells.map f).modify p g' = (h.cells.modify p g).map f := by
    apply List.ext_getElem?
    intro q
    simp only [List.getElem?_modify, List.getElem?_map]
    split <;> simp [hcomm, Function.comp_def]
  exact congrArg Heap.mk hcells

theorem alloc_map (f : α → β) (h : Heap α) (a : α) : (h.map f).alloc (f a) = (h.alloc a).map f := by
  simp [alloc, map]

end Heap

/-- A record type with the two links of an intrusive list. -/
class Linked (α : Type*) where
  prev : α → Option Ptr
  next : α → Option Ptr
  setPrev : Option Ptr → α → α
  setNext : Option Ptr → α → α
  prev_setPrev : ∀ x a, prev (setPrev x a) = x
  next_setPrev : ∀ x a, next (setPrev x a) = next a
  prev_setNext : ∀ x a, prev (setNext x a) = prev a
  next_setNext : ∀ x a, next (setNext x a) = x

namespace Linked

attribute [simp] prev_setPrev next_setPrev prev_setNext next_setNext

variable {α : Type*} [Linked α] {h h' : Heap α} {ps as bs : List Ptr} {p q : Ptr}
  {before after x y head tail : Option Ptr}

/-- The links stored at an address. -/
def links (h : Heap α) (p : Ptr) : Option (Option Ptr × Option Ptr) :=
  (h.read p).map fun a => (prev a, next a)

theorem links_of_read {a : α} (hread : h.read p = some a) : links h p = some (prev a, next a) := by
  rw [links, hread, Option.map_some]

theorem links_modify_of_ne {f : α → α} (hne : p ≠ q) : links (h.modify p f) q = links h q := by
  rw [links, Heap.read_modify_of_ne h hne, links]

/-- Set the forward link of the record at a pointer, if the pointer is not null. -/
def setNextAt (h : Heap α) (p : Option Ptr) (x : Option Ptr) : Heap α :=
  p.elim h fun q => h.modify q (setNext x)

def setPrevAt (h : Heap α) (p : Option Ptr) (x : Option Ptr) : Heap α :=
  p.elim h fun q => h.modify q (setPrev x)

@[simp] theorem setNextAt_none : setNextAt h none x = h := rfl

@[simp] theorem setNextAt_some : setNextAt h (some p) x = h.modify p (setNext x) := rfl

@[simp] theorem setPrevAt_none : setPrevAt h none x = h := rfl

@[simp] theorem setPrevAt_some : setPrevAt h (some p) x = h.modify p (setPrev x) := rfl

theorem read_setNextAt_of_ne (hne : ∀ q, before = some q → q ≠ p) :
    (setNextAt h before x).read p = h.read p := by
  cases before with
  | none => rfl
  | some q => exact Heap.read_modify_of_ne h (hne q rfl) _

theorem read_setPrevAt_of_ne (hne : ∀ q, before = some q → q ≠ p) :
    (setPrevAt h before x).read p = h.read p := by
  cases before with
  | none => rfl
  | some q => exact Heap.read_modify_of_ne h (hne q rfl) _

theorem links_setNextAt_of_ne (hne : ∀ q, before = some q → q ≠ p) :
    links (setNextAt h before x) p = links h p := by
  rw [links, read_setNextAt_of_ne hne, links]

theorem links_setPrevAt_of_ne (hne : ∀ q, before = some q → q ≠ p) :
    links (setPrevAt h before x) p = links h p := by
  rw [links, read_setPrevAt_of_ne hne, links]

/-- A stretch of a list: the records `ps` are linked to each other in order, the first back to
`before` and the last on to `after`. -/
def LinkedFrom (h : Heap α) : Option Ptr → List Ptr → Option Ptr → Prop
  | _, [], _ => True
  | before, p :: ps, after =>
    links h p = some (before, ps.head?.or after) ∧ LinkedFrom h (some p) ps after

theorem linkedFrom_append :
    LinkedFrom h before (as ++ bs) after ↔
      LinkedFrom h before as (bs.head?.or after) ∧ LinkedFrom h (as.getLast?.or before) bs after := by
  induction as generalizing before with
  | nil => simp [LinkedFrom]
  | cons p ps ih =>
    have hlast : ((p :: ps).getLast?).or before = ps.getLast?.or (some p) := by
      cases ps <;> simp [List.getLast?_cons]
    rw [hlast]
    simp only [List.cons_append, LinkedFrom, ih, List.head?_append, Option.or_assoc, and_assoc]

/-- Only the links of the stretch itself matter. -/
theorem LinkedFrom.congr (hlinked : LinkedFrom h before ps after)
    (heq : ∀ p ∈ ps, links h' p = links h p) : LinkedFrom h' before ps after := by
  induction ps generalizing before with
  | nil => trivial
  | cons p ps ih =>
    exact ⟨(heq p (List.mem_cons_self ..)).trans hlinked.1,
      ih hlinked.2 fun q hq => heq q (List.mem_cons_of_mem _ hq)⟩

theorem LinkedFrom.setNext_last (hlinked : LinkedFrom h before ps x) (hnodup : ps.Nodup) :
    LinkedFrom (setNextAt h ps.getLast? y) before ps y := by
  induction ps generalizing before with
  | nil => trivial
  | cons p ps ih =>
    obtain ⟨hp, hps⟩ := hlinked
    obtain ⟨hmem, hnodup⟩ := List.nodup_cons.mp hnodup
    cases ps with
    | nil =>
      obtain ⟨a, hread, hlinks⟩ := Option.map_eq_some_iff.mp hp
      refine ⟨?_, trivial⟩
      simp only [List.getLast?_singleton, setNextAt_some, links, Heap.read_modify_self, hread]
      simpa using (Prod.mk.inj hlinks).1
    | cons q qs =>
      rw [List.getLast?_cons_cons]
      refine ⟨?_, ih hps hnodup⟩
      rw [links_setNextAt_of_ne, hp]
      · rfl
      · rintro r hr rfl
        exact hmem (List.mem_of_getLast? hr)

theorem LinkedFrom.setPrev_head (hlinked : LinkedFrom h x ps after) (hnodup : ps.Nodup) :
    LinkedFrom (setPrevAt h ps.head? y) y ps after := by
  cases ps with
  | nil => trivial
  | cons p ps =>
    obtain ⟨hp, hps⟩ := hlinked
    obtain ⟨a, hread, hlinks⟩ := Option.map_eq_some_iff.mp hp
    refine ⟨?_, hps.congr fun q hq => links_modify_of_ne ?_⟩
    · simp only [List.head?_cons, setPrevAt_some, links, Heap.read_modify_self, hread]
      simpa using (Prod.mk.inj hlinks).2
    · rintro rfl
      exact (List.nodup_cons.mp hnodup).1 hq

/-- The list from `head` to `tail` runs through exactly the records `ps`. -/
structure IsChain (h : Heap α) (head tail : Option Ptr) (ps : List Ptr) : Prop where
  head_eq : head = ps.head?
  tail_eq : tail = ps.getLast?
  nodup : ps.Nodup
  linked : LinkedFrom h none ps none

theorem IsChain.congr (hchain : IsChain h head tail ps) (heq : ∀ p ∈ ps, links h' p = links h p) :
    IsChain h' head tail ps :=
  { hchain with linked := hchain.linked.congr heq }

theorem IsChain.head_eq_none_iff (hchain : IsChain h head tail ps) : head = none ↔ ps = [] := by
  rw [hchain.head_eq, List.head?_eq_none_iff]

theorem IsChain.tail_eq_none_iff (hchain : IsChain h head tail ps) : tail = none ↔ ps = [] := by
  rw [hchain.tail_eq, List.getLast?_eq_none_iff]

/-- Around a record of the list stand its neighbours. -/
theorem IsChain.links_split (hchain : IsChain h head tail (as ++ p :: bs)) :
    links h p = some (as.getLast?, bs.head?) := by
  have hlinked := (linkedFrom_append.mp hchain.linked).2.1
  simpa using hlinked

theorem IsChain.links_head (hchain : IsChain h head tail (p :: bs)) :
    links h p = some (none, bs.head?) :=
  hchain.linked.1.trans (by rw [Option.or_none])

theorem IsChain.exists_read (hchain : IsChain h head tail ps) (hp : p ∈ ps) :
    ∃ a, h.read p = some a := by
  obtain ⟨as, bs, rfl⟩ := List.append_of_mem hp
  obtain ⟨a, hread, -⟩ := Option.map_eq_some_iff.mp hchain.links_split
  exact ⟨a, hread⟩

/-- Enter the record at `p` behind the tail. -/
def pushBack (h : Heap α) (tail : Option Ptr) (p : Ptr) : Heap α :=
  setNextAt (h.modify p fun a => setNext none (setPrev tail a)) tail (some p)

theorem IsChain.pushBack (hchain : IsChain h head tail ps) (hp : p ∉ ps) (halloc : p < h.size) :
    IsChain (pushBack h tail p) (head.or (some p)) (some p) (ps ++ [p]) := by
  have hread : ∃ a, h.read p = some a := ⟨_, List.getElem?_eq_getElem halloc⟩
  obtain ⟨a, hread⟩ := hread
  have hne : ∀ q, ps.getLast? = some q → q ≠ p := by
    rintro q hq rfl
    exact hp (List.mem_of_getLast? hq)
  refine ⟨?_, by simp, ?_, ?_⟩
  · rw [List.head?_append, hchain.head_eq]
    rfl
  · simpa [List.nodup_append, hchain.nodup] using fun q hq => ne_of_mem_of_not_mem hq hp
  · rw [linkedFrom_append, Linked.pushBack, hchain.tail_eq]
    constructor
    · refine LinkedFrom.setNext_last (x := none) ?_ hchain.nodup
      exact hchain.linked.congr fun q hq => links_modify_of_ne (ne_of_mem_of_not_mem hq hp).symm
    · refine ⟨?_, trivial⟩
      rw [links_setNextAt_of_ne hne, links, Heap.read_modify_self, hread]
      simp

/-- Take the record at `p` out from between its neighbours, and clear its own links. -/
def unlink (h : Heap α) (prev next : Option Ptr) (p : Ptr) : Heap α :=
  (setPrevAt (setNextAt h prev next) next prev).modify p fun a => setNext none (setPrev none a)

theorem IsChain.unlink (hchain : IsChain h head tail (as ++ p :: bs)) :
    IsChain (unlink h as.getLast? bs.head? p) (as ++ bs).head? (as ++ bs).getLast? (as ++ bs) := by
  obtain ⟨-, -, hnodup, hlinked⟩ := hchain
  obtain ⟨has, hpbs, hdisj⟩ := List.nodup_append.mp hnodup
  obtain ⟨hpbs', hbs⟩ := List.nodup_cons.mp hpbs
  have hpas : p ∉ as := fun hmem => hdisj p hmem p (List.mem_cons_self ..) rfl
  have hdisj' : ∀ q ∈ as, q ∉ bs := fun q hq hq' => hdisj q hq q (List.mem_cons_of_mem _ hq') rfl
  obtain ⟨hleft, -, hright⟩ := linkedFrom_append.mp hlinked
  refine ⟨rfl, rfl, List.nodup_append.mpr ⟨has, hbs, ?_⟩, ?_⟩
  · rintro q hq r hr rfl
    exact hdisj' q hq hr
  rw [linkedFrom_append, Option.or_none, Option.or_none]
  constructor
  · refine LinkedFrom.congr (hleft.setNext_last has) fun q hq => ?_
    rw [Linked.unlink, links_modify_of_ne (ne_of_mem_of_not_mem hq hpas).symm,
      links_setPrevAt_of_ne]
    rintro r hr rfl
    exact hdisj' r hq (List.mem_of_head? hr)
  · refine LinkedFrom.congr (h := setPrevAt (setNextAt h as.getLast? bs.head?) bs.head? as.getLast?)
      ?_ fun q hq => links_modify_of_ne (ne_of_mem_of_not_mem hq hpbs').symm
    refine LinkedFrom.setPrev_head (x := some p) (hright.congr fun q hq => links_setNextAt_of_ne ?_) hbs
    rintro r hr rfl
    exact hdisj' r (List.mem_of_getLast? hr) hq

theorem IsChain.unlink_head (hchain : IsChain h head tail (p :: bs)) :
    IsChain (Linked.unlink h none bs.head? p) bs.head? bs.getLast? bs :=
  IsChain.unlink (show IsChain h head tail ([] ++ p :: bs) from hchain)

/-- A part of the record besides its links is not touched. -/
theorem map_read_unlink {β : Type*} {g : α → β} (hprev : ∀ x a, g (setPrev x a) = g a)
    (hnext : ∀ x a, g (setNext x a) = g a) :
    ((Linked.unlink h before after p).read q).map g = (h.read q).map g := by
  rw [Linked.unlink, Heap.map_read_modify _ _ _ fun a => by rw [hnext, hprev]]
  cases before <;> cases after <;> simp only [setNextAt_none, setNextAt_some, setPrevAt_none,
    setPrevAt_some, Heap.map_read_modify _ _ _ (hprev _), Heap.map_read_modify _ _ _ (hnext _)]

theorem map_read_pushBack {β : Type*} {g : α → β} (hprev : ∀ x a, g (setPrev x a) = g a)
    (hnext : ∀ x a, g (setNext x a) = g a) :
    ((Linked.pushBack h tail p).read q).map g = (h.read q).map g := by
  rw [Linked.pushBack]
  cases tail <;> simp only [setNextAt_none, setNextAt_some, Heap.map_read_modify _ _ _ (hnext _)] <;>
    rw [Heap.map_read_modify _ _ _ fun a => by rw [hnext, hprev]]

@[simp] theorem size_unlink : (Linked.unlink h before after p).size = h.size := by
  cases before <;> cases after <;> simp [Linked.unlink]

@[simp] theorem size_pushBack : (Linked.pushBack h tail p).size = h.size := by
  cases tail <;> simp [Linked.pushBack]

/-- Records outside the list are not touched. -/
theorem read_unlink_of_not_mem (hq : q ∉ as ++ p :: bs) :
    (Linked.unlink h as.getLast? bs.head? p).read q = h.read q := by
  have hlast : ∀ r, as.getLast? = some r → r ≠ q := by
    intro r hr heq
    exact hq (List.mem_append_left _ (heq ▸ List.mem_of_getLast? hr))
  have hhead : ∀ r, bs.head? = some r → r ≠ q := by
    intro r hr heq
    exact hq (List.mem_append_right _ (List.mem_cons_of_mem _ (heq ▸ List.mem_of_head? hr)))
  have hp : p ≠ q := by
    intro heq
    exact hq (List.mem_append_right _ (heq ▸ List.mem_cons_self ..))
  rw [Linked.unlink, Heap.read_modify_of_ne _ hp, read_setPrevAt_of_ne hhead,
    read_setNextAt_of_ne hlast]

theorem read_unlink_head_of_not_mem (hq : q ∉ p :: bs) :
    (Linked.unlink h none bs.head? p).read q = h.read q :=
  read_unlink_of_not_mem (show q ∉ [] ++ p :: bs from hq)

theorem read_pushBack_of_not_mem (htail : tail = ps.getLast?) (hq : q ∉ ps ++ [p]) :
    (Linked.pushBack h tail p).read q = h.read q := by
  have hp : p ≠ q := by
    intro heq
    exact hq (List.mem_append_right _ (heq ▸ List.mem_cons_self ..))
  have hlast : ∀ r, tail = some r → r ≠ q := by
    intro r hr heq
    exact hq (List.mem_append_left _ (heq ▸ List.mem_of_getLast? (htail ▸ hr)))
  rw [Linked.pushBack, read_setNextAt_of_ne hlast, Heap.read_modify_of_ne _ hp]

/-- A list has no more records than the heap. -/
theorem IsChain.length_le_size (hchain : IsChain h head tail ps) : ps.length ≤ h.size := by
  have hsub : ps ⊆ List.range h.size := by
    intro p hp
    obtain ⟨a, hread⟩ := hchain.exists_read hp
    exact List.mem_range.mpr (Heap.lt_size_of_read hread)
  simpa using (hchain.nodup.subperm hsub).length_le

/-- The records reached from a pointer along the forward links, as far as the fuel goes. -/
def walk (h : Heap α) : Nat → Option Ptr → List Ptr
  | fuel + 1, some p =>
    match h.read p with
    | some a => p :: walk h fuel (next a)
    | none => []
  | _, _ => []

theorem LinkedFrom.walk_eq {fuel : Nat} (hlinked : LinkedFrom h before ps none)
    (hfuel : ps.length ≤ fuel) : walk h fuel ps.head? = ps := by
  induction ps generalizing before fuel with
  | nil => cases fuel <;> rfl
  | cons p ps ih =>
    obtain ⟨hp, hps⟩ := hlinked
    obtain ⟨a, hread, hlinks⟩ := Option.map_eq_some_iff.mp hp
    have hnext : next a = ps.head? := by simpa using congrArg Prod.snd hlinks
    obtain ⟨fuel, rfl⟩ : ∃ n, fuel = n + 1 := ⟨fuel - 1, by rw [List.length_cons] at hfuel; omega⟩
    rw [List.head?_cons, walk, hread]
    simp only [hnext, List.cons.injEq, true_and]
    exact ih hps (by simpa using hfuel)

/-- Walking from the head finds the whole list. -/
theorem IsChain.walk_eq (hchain : IsChain h head tail ps) : walk h h.size head = ps := by
  rw [hchain.head_eq]
  exact hchain.linked.walk_eq hchain.length_le_size

end Linked
