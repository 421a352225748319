import Mathlib.Data.List.DropRight

/-!
# Delimited text

Text cut into pieces at a separator. A reader that peels off one piece at a time sees the pieces in
order; once none is left it sees empty ones, and what it has left to read is then empty, too. But
that is also what is left in front of an empty last piece, so a reader that only asks whether
something is left does not tell the two apart (`intercalate_eq_nil_iff`).
-/

namespace Delimited

variable {α : Type*} [DecidableEq α] {sep : α} {xs piece : List α} {ps : List (List α)}

/-- The piece in front of the first separator, and the text behind it. -/
def peel (sep : α) (xs : List α) : List α × List α :=
  match xs.idxOf? sep with
  | none => (xs, [])
  | some i => (xs.take i, xs.drop (i + 1))

theorem peel_of_not_mem (h : sep ∉ xs) : peel sep xs = (xs, []) := by
  rw [peel, List.idxOf?_eq_none_iff.mpr h]

theorem peel_append_cons (h : sep ∉ piece) (xs : List α) :
    peel sep (piece ++ sep :: xs) = (piece, xs) := by
  have hidx : (piece ++ sep :: xs).idxOf? sep = some piece.length := by
    apply List.idxOf?_eq_some_iff.mpr
    refine ⟨by simp, by simp, ?_⟩
    intro j hj heq
    rw [List.getElem_append_left hj] at heq
    exact h (heq ▸ List.getElem_mem hj)
  rw [peel, hidx]
  simp

/-- Peeling text made of pieces takes off the first one; where there is none it yields nothing. -/
theorem peel_intercalate (h : ∀ p ∈ ps, sep ∉ p) :
    peel sep ([sep].intercalate ps) = (ps.head?.getD [], [sep].intercalate ps.tail) := by
  cases ps with
  | nil => rfl
  | cons p ps =>
    have hp := h p (List.mem_cons_self ..)
    cases ps with
    | nil => simpa using peel_of_not_mem hp
    | cons q qs =>
      rw [List.intercalate_cons_cons, List.append_assoc]
      exact peel_append_cons hp _

theorem not_mem_of_mem_splitOn (h : piece ∈ xs.splitOn sep) : sep ∉ piece := by
  induction xs generalizing piece with
  | nil =>
    rw [List.splitOn_nil, List.mem_singleton] at h
    subst h
    exact List.not_mem_nil
  | cons x xs ih =>
    rw [List.splitOn_cons_eq_if_modifyHead] at h
    by_cases hx : x = sep
    · rw [if_pos (by simpa using hx)] at h
      rcases List.mem_cons.mp h with rfl | h
      · exact List.not_mem_nil
      · exact ih h
    · rw [if_neg (by simpa using hx)] at h
      obtain ⟨p, ps, hps⟩ := List.exists_cons_of_ne_nil (List.splitOn_ne_nil sep xs)
      rw [hps, List.modifyHead_cons, List.mem_cons] at h
      rcases h with rfl | h
      · rw [List.mem_cons, not_or]
        exact ⟨fun heq => hx heq.symm, ih (hps ▸ List.mem_cons_self ..)⟩
      · exact ih (hps ▸ List.mem_cons_of_mem _ h)

theorem mem_of_mem_splitOn {x : α} (h : piece ∈ xs.splitOn sep) (hx : x ∈ piece) : x ∈ xs := by
  obtain ⟨i, hi⟩ := List.mem_iff_getElem?.mp h
  have hpiece : ((xs.splitOn sep).intersperse [sep])[2 * i]? = some piece := by
    rw [List.getElem?_intersperse_two_mul, hi]
  have hflat := List.mem_flatten.mpr ⟨piece, List.mem_of_getElem? hpiece, hx⟩
  rwa [← List.intercalate, List.intercalate_splitOn] at hflat

/-- A character that is no separator joins the first piece, or the last one. -/
theorem splitOn_cons_of_ne {x : α} (hx : x ≠ sep) (xs : List α) :
    ∃ p ps, xs.splitOn sep = p :: ps ∧ (x :: xs).splitOn sep = (x :: p) :: ps := by
  obtain ⟨p, ps, hps⟩ := List.exists_cons_of_ne_nil (List.splitOn_ne_nil sep xs)
  refine ⟨p, ps, hps, ?_⟩
  rw [List.splitOn_cons_eq_if_modifyHead, if_neg (by simpa using hx), hps, List.modifyHead_cons]

theorem splitOn_concat_of_ne {x : α} (hx : x ≠ sep) (xs : List α) :
    ∃ ps p, xs.splitOn sep = ps ++ [p] ∧ (xs ++ [x]).splitOn sep = ps ++ [p ++ [x]] := by
  induction xs with
  | nil => exact ⟨[], [], rfl, List.splitOn_eq_singleton (by simpa using hx.symm)⟩
  | cons y ys ih =>
    obtain ⟨ps, p, hps, hconcat⟩ := ih
    rw [List.cons_append, List.splitOn_cons_eq_if_modifyHead, List.splitOn_cons_eq_if_modifyHead, hps,
      hconcat]
    split
    · exact ⟨[] :: ps, p, rfl, rfl⟩
    · cases ps with
      | nil => exact ⟨[], y :: p, rfl, rfl⟩
      | cons q qs => exact ⟨(y :: q) :: qs, p, rfl, rfl⟩

omit [DecidableEq α] in
/-- Text is empty both without any piece and with one empty piece. -/
theorem intercalate_eq_nil_iff : [sep].intercalate ps = [] ↔ ps = [] ∨ ps = [[]] := by
  cases ps with
  | nil => simp
  | cons p ps =>
    cases ps with
    | nil => simp
    | cons q qs => simp

omit [DecidableEq α] in
theorem prefix_intercalate (sep : α) (p : List α) (ps : List (List α)) :
    p <+: [sep].intercalate (p :: ps) := by
  cases ps with
  | nil => simp only [List.intercalate_singleton, List.prefix_rfl]
  | cons q qs =>
    rw [List.intercalate_cons_cons, List.append_assoc]
    exact List.prefix_append ..

omit [DecidableEq α] in
theorem suffix_intercalate (sep : α) (ps : List (List α)) (p : List α) :
    p <:+ [sep].intercalate (ps ++ [p]) := by
  induction ps with
  | nil => simp only [List.nil_append, List.intercalate_singleton, List.suffix_rfl]
  | cons q ps ih =>
    rw [List.cons_append, List.intercalate_cons_of_ne_nil (by simp)]
    exact ih.trans (List.suffix_append ..)

omit [DecidableEq α] in
theorem mem_intercalate {x : α} (h : x ∈ [sep].intercalate ps) : x = sep ∨ ∃ p ∈ ps, x ∈ p := by
  induction ps with
  | nil => simp at h
  | cons p ps ih =>
    by_cases hnil : ps = []
    · subst hnil
      rw [List.intercalate_singleton] at h
      exact Or.inr ⟨p, List.mem_cons_self .., h⟩
    · rw [List.intercalate_cons_of_ne_nil hnil, List.mem_append, List.mem_append,
        List.mem_singleton] at h
      rcases h with (h | h) | h
      · exact Or.inr ⟨p, List.mem_cons_self .., h⟩
      · exact Or.inl h
      · exact (ih h).imp_right fun ⟨q, hq, hx⟩ => ⟨q, List.mem_cons_of_mem _ hq, hx⟩

omit [DecidableEq α] in
/-- Pieces each closed by a separator are pieces separated by it, with an empty one behind them. -/
theorem flatMap_concat (sep : α) (ps : List (List α)) :
    ps.flatMap (fun p => p ++ [sep]) = [sep].intercalate (ps ++ [[]]) := by
  induction ps with
  | nil => rfl
  | cons p ps ih =>
    rw [List.flatMap_cons, ih, List.cons_append, List.intercalate_cons_of_ne_nil (by simp)]

/-! ### Trimming -/

section Trim

variable {p : α → Bool} {x : α}

/-- The text between the outer stretches of characters that satisfy `p`. -/
def trim (p : α → Bool) (xs : List α) : List α := (xs.dropWhile p).rdropWhile p

omit [DecidableEq α]

@[simp] theorem trim_nil : trim p [] = [] := List.rdropWhile_nil p

theorem trim_eq_nil_iff : trim p xs = [] ↔ ∀ x ∈ xs, p x = true := by
  rw [trim, List.rdropWhile_eq_nil_iff]
  constructor
  · intro h x hx
    rw [← List.takeWhile_append_dropWhile (p := p) (l := xs), List.mem_append] at hx
    exact hx.elim List.mem_takeWhile_imp (h x)
  · intro h x hx
    exact h x ((List.dropWhile_suffix p).subset hx)

theorem trim_eq_self (h : ∀ x ∈ xs, p x = false) : trim p xs = xs := by
  have hfront : xs.dropWhile p = xs := by
    cases xs with
    | nil => rfl
    | cons x xs => exact List.dropWhile_cons_of_neg (by simp [h x (List.mem_cons_self ..)])
  rw [trim, hfront, List.rdropWhile_eq_self_iff]
  intro hne hlast
  rw [h _ (List.getLast_mem hne)] at hlast
  cases hlast

theorem trim_cons (hx : p x = true) (xs : List α) : trim p (x :: xs) = trim p xs := by
  rw [trim, List.dropWhile_cons_of_pos hx, trim]

theorem trim_concat (hx : p x = true) (xs : List α) : trim p (xs ++ [x]) = trim p xs := by
  rw [trim, List.dropWhile_append, trim]
  split
  · rename_i hall
    rw [List.isEmpty_iff.mp hall, List.dropWhile_cons_of_pos hx, List.dropWhile_nil]
  · rw [List.rdropWhile_concat_pos _ _ _ hx]

/-- What trimming takes off. -/
theorem exists_trim (p : α → Bool) (xs : List α) :
    ∃ as bs, xs = as ++ trim p xs ++ bs ∧ (∀ x ∈ as, p x = true) ∧ ∀ x ∈ bs, p x = true := by
  refine ⟨xs.takeWhile p, (xs.dropWhile p).rtakeWhile p, ?_, fun x hx => List.mem_takeWhile_imp hx,
    fun x hx => List.mem_rtakeWhile_imp hx⟩
  rw [trim, List.append_assoc, List.rdropWhile_append_rtakeWhile, List.takeWhile_append_dropWhile]

theorem not_of_getLast?_trim (h : (trim p xs).getLast? = some x) : p x = false := by
  have hne : (xs.dropWhile p).rdropWhile p ≠ [] := by
    intro hnil
    rw [trim, hnil] at h
    simp at h
  have hlast := List.rdropWhile_last_not p (xs.dropWhile p) hne
  rw [trim, List.getLast?_eq_some_getLast hne, Option.some.injEq] at h
  simpa [h] using hlast

theorem head?_trim_cons (hx : p x = false) (xs : List α) : (trim p (x :: xs)).head? = some x := by
  have hfront : (x :: xs).dropWhile p = x :: xs := List.dropWhile_cons_of_neg (by simp [hx])
  obtain ⟨rest, hrest⟩ := List.rdropWhile_prefix p (l := x :: xs)
  rw [trim, hfront]
  cases htrim : (x :: xs).rdropWhile p with
  | nil =>
    have hall := List.rdropWhile_eq_nil_iff.mp htrim x (List.mem_cons_self ..)
    simp [hx] at hall
  | cons y ys =>
    rw [htrim, List.cons_append, List.cons.injEq] at hrest
    rw [hrest.1]
    rfl

end Trim

end Delimited
