import Mathlib.Data.List.Forall2

/-!
# Computations that may fail

What a sequence of computations gives when all of them succeed.
-/

namespace Supermartingale

open List

variable {α β ε : Type}

/-! ## Lists that are related member by member -/

variable {R : α → β → Prop} {xs : List α} {ys : List β} {f : α → Except ε β}

theorem exists_of_mem_right (related : Forall₂ R xs ys) {y : β} (mem : y ∈ ys) : ∃ x ∈ xs, R x y := by
  induction related with
  | nil => cases mem
  | cons first _ ih =>
    rcases mem_cons.mp mem with rfl | later
    · exact ⟨_, mem_cons_self, first⟩
    · obtain ⟨x, inside, holds⟩ := ih later
      exact ⟨x, mem_cons_of_mem _ inside, holds⟩

theorem exists_of_mem_left (related : Forall₂ R xs ys) {x : α} (mem : x ∈ xs) : ∃ y ∈ ys, R x y :=
  exists_of_mem_right related.flip mem

theorem exists_getElem?_left (related : Forall₂ R xs ys)
    {i : ℕ} {y : β} (found : ys[i]? = some y) : ∃ x, xs[i]? = some x ∧ R x y := by
  obtain ⟨bound, rfl⟩ := List.getElem?_eq_some_iff.mp found
  have bound' : i < xs.length := related.length_eq ▸ bound
  exact ⟨xs[i], List.getElem?_eq_getElem bound', related.get bound' bound⟩

theorem exists_getElem?_right (related : Forall₂ R xs ys)
    {i : ℕ} {x : α} (found : xs[i]? = some x) : ∃ y, ys[i]? = some y ∧ R x y :=
  exists_getElem?_left related.flip found

theorem forall₂_of_mem {R S : α → β → Prop} (related : Forall₂ R xs ys)
    (each : ∀ x ∈ xs, ∀ y, R x y → S x y) : Forall₂ S xs ys := by
  induction related with
  | nil => exact .nil
  | cons first _ ih =>
    rw [forall_mem_cons] at each
    exact .cons (each.1 _ first) (ih each.2)

theorem exists_forall₂ (each : ∀ x ∈ xs, ∃ y, R x y) : ∃ ys, Forall₂ R xs ys := by
  induction xs with
  | nil => exact ⟨[], .nil⟩
  | cons x xs ih =>
    rw [forall_mem_cons] at each
    obtain ⟨y, first⟩ := each.1
    obtain ⟨ys, rest⟩ := ih each.2
    exact ⟨y :: ys, .cons first rest⟩

/-! ## Sequences of computations -/

theorem bind_eq_ok {x : Except ε α} {r : β} : x >>= f = .ok r ↔ ∃ a, x = .ok a ∧ f a = .ok r := by
  cases x with
  | error e =>
    constructor
    · intro made
      cases made
    · rintro ⟨_, made, _⟩
      cases made
  | ok a =>
    constructor
    · exact fun made => ⟨a, rfl, made⟩
    · rintro ⟨_, same, made⟩
      cases same
      exact made

theorem exists_of_isOk {x : Except ε α} (ok : x.isOk) : ∃ a, x = .ok a := by
  cases x with
  | error e => cases ok
  | ok a => exact ⟨a, rfl⟩

theorem exists_of_any {x : Except ε α} {check : α → Bool} (found : x.toOption.any check) :
    ∃ a, x = .ok a ∧ check a := by
  cases x with
  | error e => cases found
  | ok a => exact ⟨a, rfl, found⟩

theorem mapM_eq_ok : xs.mapM f = .ok ys ↔ Forall₂ (fun x y => f x = .ok y) xs ys := by
  induction xs generalizing ys with
  | nil =>
    rw [mapM_nil, forall₂_nil_left_iff]
    constructor
    · intro h
      cases h
      rfl
    · rintro rfl
      rfl
  | cons x xs ih =>
    rw [mapM_cons, bind_eq_ok, forall₂_cons_left_iff]
    constructor
    · rintro ⟨y, first, rest⟩
      obtain ⟨zs, others, same⟩ := bind_eq_ok.mp rest
      cases same
      exact ⟨y, zs, first, ih.mp others, rfl⟩
    · rintro ⟨y, zs, first, others, rfl⟩
      exact ⟨y, first, bind_eq_ok.mpr ⟨zs, ih.mpr others, rfl⟩⟩

/-- What holds between related members and their results holds between the lists. -/
theorem exists_mapM_forall₂ {γ : Type} {S : α → γ → Prop} {f : β → Except ε γ}
    (related : Forall₂ R xs ys) (each : ∀ x y, R x y → ∃ z, f y = .ok z ∧ S x z) :
    ∃ zs, ys.mapM f = .ok zs ∧ Forall₂ S xs zs := by
  induction related with
  | nil => exact ⟨[], rfl, .nil⟩
  | cons first _ ih =>
    obtain ⟨z, made, holds⟩ := each _ _ first
    obtain ⟨zs, others, rest⟩ := ih
    refine ⟨z :: zs, ?_, .cons holds rest⟩
    rw [mapM_cons]
    exact bind_eq_ok.mpr ⟨z, made, bind_eq_ok.mpr ⟨zs, others, rfl⟩⟩

theorem exists_of_mem_mapM (h : xs.mapM f = .ok ys) {y : β} (mem : y ∈ ys) : ∃ x ∈ xs, f x = .ok y :=
  exists_of_mem_right (mapM_eq_ok.mp h) mem

theorem exists_mem_of_mapM (h : xs.mapM f = .ok ys) {x : α} (mem : x ∈ xs) : ∃ y ∈ ys, f x = .ok y :=
  exists_of_mem_left (mapM_eq_ok.mp h) mem

theorem exists_mapM_eq_ok (ok : ∀ x ∈ xs, ∃ y, f x = .ok y) : ∃ ys, xs.mapM f = .ok ys := by
  obtain ⟨ys, results⟩ := exists_forall₂ ok
  exact ⟨ys, mapM_eq_ok.mpr results⟩

theorem mapM_flatMap {γ : Type} (f : α → List β) (g : β → Except ε γ) (xs : List α) :
    (xs.mapM fun x => (f x).mapM g).map List.flatten = (xs.flatMap f).mapM g := by
  induction xs with
  | nil => rfl
  | cons x xs ih =>
    rw [mapM_cons, flatMap_cons, mapM_append, ← ih]
    cases (f x).mapM g with
    | error e => rfl
    | ok ys => cases xs.mapM fun x => (f x).mapM g <;> rfl

theorem mapM_congr {f g : α → Except ε β} (same : ∀ x ∈ xs, f x = g x) : xs.mapM f = xs.mapM g := by
  induction xs with
  | nil => rfl
  | cons x xs ih =>
    obtain ⟨first, others⟩ := forall_mem_cons.mp same
    rw [mapM_cons, mapM_cons, first, ih others]

theorem exists_mapM_eq_error {P : ε → Prop}
    (each : ∀ x ∈ xs, (∃ y, f x = .ok y) ∨ ∃ e, f x = .error e ∧ P e) (bad : ∃ x ∈ xs, ∃ e, f x = .error e) :
    ∃ e, xs.mapM f = .error e ∧ P e := by
  induction xs with
  | nil => simp at bad
  | cons x xs ih =>
    obtain ⟨first, others⟩ := forall_mem_cons.mp each
    rw [mapM_cons]
    rcases first with ⟨y, made⟩ | ⟨e, made, holds⟩
    · have later : ∃ x ∈ xs, ∃ e, f x = .error e := by simpa [made] using bad
      obtain ⟨e, failed, holds⟩ := ih others later
      exact ⟨e, by rw [made, failed]; rfl, holds⟩
    · exact ⟨e, by rw [made]; rfl, holds⟩

theorem mapM_cases {P : ε → Prop} (each : ∀ x ∈ xs, (∃ y, f x = .ok y) ∨ ∃ e, f x = .error e ∧ P e) :
    (∃ ys, xs.mapM f = .ok ys) ∨ ∃ e, xs.mapM f = .error e ∧ P e := by
  by_cases failed : ∃ x ∈ xs, ∃ e, f x = .error e
  · exact .inr (exists_mapM_eq_error each failed)
  · refine .inl (exists_mapM_eq_ok fun x mem => (each x mem).resolve_right ?_)
    exact fun ⟨e, made, _⟩ => failed ⟨x, mem, e, made⟩

theorem forM_of_ok {f : α → Except ε Unit} (ok : ∀ x ∈ xs, f x = .ok ()) : xs.forM f = .ok () := by
  induction xs with
  | nil => rfl
  | cons x xs ih =>
    rw [forall_mem_cons] at ok
    exact bind_eq_ok.mpr ⟨(), ok.1, ih ok.2⟩

theorem filterMapM_of_ok {f : α → Except ε (Option β)} {g : α → Option β}
    (ok : ∀ x ∈ xs, f x = .ok (g x)) : xs.filterMapM f = .ok (xs.filterMap g) := by
  induction xs with
  | nil => rfl
  | cons x xs ih =>
    rw [forall_mem_cons] at ok
    rw [filterMapM_cons, ok.1, filterMap_cons, ih ok.2]
    cases g x with
    | none => rfl
    | some y => rfl

theorem foldlM_invariant {f : β → α → Except ε β} {I : β → Prop}
    (step : ∀ x ∈ xs, ∀ b b', I b → f b x = .ok b' → I b') {b r : β} (start : I b)
    (result : xs.foldlM f b = .ok r) : I r := by
  induction xs generalizing b with
  | nil =>
    cases result
    exact start
  | cons x xs ih =>
    obtain ⟨first, others⟩ := forall_mem_cons.mp step
    rw [foldlM_cons] at result
    obtain ⟨b', made, rest⟩ := bind_eq_ok.mp result
    exact ih others (first b b' start made) rest

/-! ## Entries that are set in place or added -/

section

variable {κ : Type} (here wanted : κ → Bool) {k : κ} {v : α} {entries : List (κ × α)}

def upsert (here : κ → Bool) (k : κ) (v : α) (entries : List (κ × α)) : List (κ × α) :=
  if entries.any (fun e => here e.1) then entries.map fun e => if here e.1 then (e.1, v) else e
  else entries ++ [(k, v)]

theorem find?_upsert_self (own : here k) :
    ((upsert here k v entries).find? fun e => here e.1).map (·.2) = some v := by
  unfold upsert
  split
  · rename_i present
    induction entries with
    | nil => cases present
    | cons e entries ih =>
      cases first : here e.1 with
      | true => simp [first]
      | false =>
        rw [any_cons, first, Bool.false_or] at present
        simpa [first] using ih present
  · rename_i absent
    rw [List.find?_append, List.find?_eq_none.mpr (by simpa using absent)]
    simp [own]

theorem find?_upsert_of_ne (own : here k) (other : ∀ l, here l → wanted l = false) :
    (upsert here k v entries).find? (fun e => wanted e.1) = entries.find? fun e => wanted e.1 := by
  unfold upsert
  split
  · clear * - other
    induction entries with
    | nil => rfl
    | cons e entries ih =>
      cases first : here e.1 with
      | true => simpa [first, other e.1 first] using ih
      | false => simp [first, List.find?_cons, ih]
  · simp [List.find?_append, other k own]

theorem keys_upsert (present : entries.any fun e => here e.1) :
    (upsert here k v entries).map (·.1) = entries.map (·.1) := by
  rw [upsert, if_pos present, map_map]
  refine map_congr_left fun e _ => ?_
  rw [Function.comp_apply]
  split <;> rfl

end

end Supermartingale
