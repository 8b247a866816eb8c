import Supermartingale.Sort

/-!
# What sorting does

A sorted list has the same items, and they are in order. A list in order stays as it is.
-/

namespace Supermartingale.Sort

open List

variable {α : Type} (le : α → α → Bool) {xs : List α}

theorem merge_eq (xs ys : List α) : merge le xs ys = List.merge xs ys le := by
  induction xs generalizing ys with
  | nil => simp [merge]
  | cons x xs ih =>
    induction ys with
    | nil => simp [merge, mergeFrom]
    | cons y ys inner =>
      rw [cons_merge_cons, ← ih, ← inner]
      rfl

theorem merge_perm (xs ys : List α) : (merge le xs ys).Perm (xs ++ ys) := merge_eq le xs ys ▸ merge_perm_append le

def items (runs : List (Option (List α))) : List α := runs.flatMap fun run => run.getD []

theorem carry_perm (run : List α) (runs : List (Option (List α))) :
    (items (carry le run runs)).Perm (run ++ items runs) := by
  induction runs generalizing run with
  | nil => simp [carry, items]
  | cons first runs ih =>
    cases first with
    | none => simp [carry, items]
    | some first =>
      have merged := (merge_perm le run first).append_right (items runs)
      simpa [carry, items] using (ih (merge le run first)).trans merged

theorem sort_perm (xs : List α) : (sort le xs).Perm xs := by
  have runs : (items (xs.foldr (fun x runs => carry le [x] runs) [])).Perm xs := by
    induction xs with
    | nil => exact .refl _
    | cons x xs ih => exact (carry_perm le [x] _).trans (ih.cons x)
  have merged (runs : List (Option (List α))) (before : List α) :
      (runs.foldl (fun before run => run.elim before (merge le before)) before).Perm
        (before ++ items runs) := by
    induction runs generalizing before with
    | nil => simp [items]
    | cons run runs ih =>
      cases run with
      | none => simpa [items] using ih before
      | some run =>
        have first := (merge_perm le before run).append_right (items runs)
        simpa [items] using (ih (merge le before run)).trans first
  exact (merged _ []).trans runs

@[simp]
theorem mem_sort {x : α} : x ∈ sort le xs ↔ x ∈ xs := (sort_perm le xs).mem_iff

section

variable (total : ∀ a b, le a b ∨ le b a) (trans : ∀ a b c, le a b → le b c → le a c)
include total trans

theorem pairwise_merge {xs ys : List α} (first : xs.Pairwise (le · ·)) (second : ys.Pairwise (le · ·)) :
    (merge le xs ys).Pairwise (le · ·) := by
  rw [merge_eq]
  exact List.pairwise_merge trans (by simpa using total) xs ys first second

theorem pairwise_carry {run : List α} {runs : List (Option (List α))} (new : run.Pairwise (le · ·))
    (old : ∀ r, some r ∈ runs → r.Pairwise (le · ·)) : ∀ r, some r ∈ carry le run runs → r.Pairwise (le · ·) := by
  induction runs generalizing run with
  | nil => simpa [carry] using new
  | cons first runs ih =>
    cases first with
    | none => simpa [carry] using ⟨new, fun r mem => old r (mem_cons_of_mem _ mem)⟩
    | some first =>
      have merged := pairwise_merge le total trans new (old first mem_cons_self)
      simpa [carry] using ih merged fun r mem => old r (mem_cons_of_mem _ mem)

theorem pairwise_sort (xs : List α) : (sort le xs).Pairwise (le · ·) := by
  have runs : ∀ r, some r ∈ xs.foldr (fun x runs => carry le [x] runs) [] → r.Pairwise (le · ·) := by
    induction xs with
    | nil => simp
    | cons x xs ih => exact pairwise_carry le total trans (pairwise_singleton _ x) ih
  have merged (runs : List (Option (List α))) (before : List α) (first : before.Pairwise (le · ·))
      (others : ∀ r, some r ∈ runs → r.Pairwise (le · ·)) :
      (runs.foldl (fun before run => run.elim before (merge le before)) before).Pairwise (le · ·) := by
    induction runs generalizing before with
    | nil => exact first
    | cons run runs ih =>
      have rest := fun r mem => others r (mem_cons_of_mem run mem)
      cases run with
      | none => exact ih before first rest
      | some run => exact ih _ (pairwise_merge le total trans first (others run mem_cons_self)) rest
  exact merged _ [] List.Pairwise.nil runs

end

theorem merge_eq_append {xs ys : List α} (sorted : (xs ++ ys).Pairwise (le · ·)) : merge le xs ys = xs ++ ys := by
  rw [merge_eq]
  exact merge_of_le fun x y left right => (pairwise_append.mp sorted).2.2 x left y right

theorem items_carry {run : List α} {runs : List (Option (List α))} (sorted : (run ++ items runs).Pairwise (le · ·)) :
    items (carry le run runs) = run ++ items runs := by
  induction runs generalizing run with
  | nil => simp [carry, items]
  | cons first runs ih =>
    cases first with
    | none => simp [carry, items]
    | some first =>
      have whole : run ++ items (some first :: runs) = run ++ first ++ items runs := by simp [items]
      rw [whole] at sorted ⊢
      have merged := merge_eq_append le (pairwise_append.mp sorted).1
      have later : items (carry le (merge le run first) runs) = merge le run first ++ items runs := ih (by rwa [merged])
      rw [merged] at later
      simpa [carry, items, merged] using later

theorem sort_eq_self (sorted : xs.Pairwise (le · ·)) : sort le xs = xs := by
  have runs : items (xs.foldr (fun x runs => carry le [x] runs) []) = xs := by
    induction xs with
    | nil => rfl
    | cons x xs ih =>
      have rest := ih (pairwise_cons.mp sorted).2
      rw [foldr_cons, items_carry le (by rwa [rest]), rest]
      rfl
  have merged (runs : List (Option (List α))) (before : List α)
      (sorted : (before ++ items runs).Pairwise (le · ·)) :
      runs.foldl (fun before run => run.elim before (merge le before)) before = before ++ items runs := by
    induction runs generalizing before with
    | nil => simp [items]
    | cons run runs ih =>
      cases run with
      | none => simpa [items] using ih before (by simpa [items] using sorted)
      | some run =>
        have whole : before ++ items (some run :: runs) = before ++ run ++ items runs := by simp [items]
        rw [whole] at sorted ⊢
        have first := merge_eq_append le (pairwise_append.mp sorted).1
        rw [foldl_cons, Option.elim_some, first, ih _ sorted]
  unfold sort
  rw [merged _ [] (by rwa [runs]), nil_append, runs]

end Supermartingale.Sort
