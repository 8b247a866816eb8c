import Supermartingale.Proofs.Except
import Supermartingale.Session

/-!
# Sessions step by step

What an action that came to an end did to the files, and what each of its steps did.
-/

namespace Supermartingale

/-! ## Files -/

namespace Files

theorem follow_congr {f g : Files} (links : f.links = g.links) (n : ℕ) (path : String) :
    f.follow n path = g.follow n path := by
  induction n generalizing path with
  | zero => rfl
  | succ n ih =>
    rw [follow, follow, links]
    split
    · rfl
    · exact ih _

theorem place_set (f : Files) (path p : String) (e : Entry) : (f.set path e).place p = f.place p := by
  have kept : (f.set path e).links = f.links ∧ (f.set path e).here = f.here := by
    unfold set
    split <;> exact ⟨rfl, rfl⟩
  rw [place, place, kept.2, follow_congr kept.1]

theorem entries_set (f : Files) (path : String) (e : Entry) :
    (f.set path e).entries = upsert (· == path) path e f.entries := by
  rw [set, upsert]
  split <;> rfl

theorem find?_set (f : Files) (path : String) (e : Entry) : (f.set path e).find? path = some e := by
  obtain ⟨entry, found, rfl⟩ := Option.map_eq_some_iff.mp
    (find?_upsert_self (v := e) (· == path) (beq_self_eq_true path))
  rw [find?, entries_set, found]

theorem entry?_write {f f' : Files} {p text : String} (written : f.write p text = .ok f') :
    ∃ runnable, f'.entry? p = some (.file text runnable) := by
  have stored (runnable : Bool) (named : p.isEmpty = false) :
      entry? (f.put p text runnable) p = some (.file text runnable) := by
    rw [ entry?, locate?, named, put, place_set]
    exact find?_set f _ _
  unfold write at written
  split at written
  · cases written
  · rename_i runnable there
    cases written
    refine ⟨runnable, stored runnable ?_⟩
    by_contra empty
    rw [Bool.not_eq_false] at empty
    simp [ entry?, locate?, empty] at there
  · split at written
    · split at written
      · cases written
      · rename_i named
        cases written
        exact ⟨false, stored false (by simpa using named)⟩
    · cases written
    · cases written

end Files

/-! ## Steps of a session -/

namespace SessionM

variable {α β : Type} {σ σ' : Session} {p text : String} {u : Unit}

theorem runIn_bind_eq_ok {a : SessionM α} {f : α → SessionM β} {r : β} :
    runIn (a >>= f) σ = (.ok r, σ') ↔ ∃ x τ, runIn a σ = (.ok x, τ) ∧ runIn (f x) τ = (.ok r, σ') := by
  have unfolded : runIn (a >>= f) σ = match runIn a σ with
      | (.ok x, τ) => runIn (f x) τ
      | (.error e, τ) => (.error e, τ) := by
    change ExceptT.bindCont f (runIn a σ).1 (runIn a σ).2 = _
    cases runIn a σ with
    | mk x τ => cases x <;> rfl
  rw [unfolded]
  cases runIn a σ with
  | mk x τ =>
    cases x with
    | error e => simp
    | ok x => simp

theorem exists_of_runIn {a : SessionM α} {check : α → Bool} (found : (runIn a σ).1.toOption.any check) :
    ∃ r τ, runIn a σ = (.ok r, τ) ∧ check r := by
  obtain ⟨r, result, checked⟩ := exists_of_any found
  exact ⟨r, _, Prod.ext result rfl, checked⟩

theorem runIn_liftM (x : Except Error α) : runIn (liftM x : SessionM α) σ = (x, σ) := rfl

theorem runIn_change {f : Files → Except Error Files} (changed : runIn (change f) σ = (.ok u, σ')) :
    f σ.files = .ok σ'.files := by
  obtain ⟨files, τ, current, rest⟩ := runIn_bind_eq_ok.mp changed
  cases current
  obtain ⟨files, τ, given, rest⟩ := runIn_bind_eq_ok.mp rest
  obtain ⟨same, rfl⟩ := Prod.mk.inj ((runIn_liftM _).symm.trans given)
  cases rest
  exact same

theorem runIn_writeFile (written : runIn (writeFile p text) σ = (.ok u, σ')) :
    ∃ runnable, σ'.files.entry? p = some (.file text runnable) :=
  Files.entry?_write (runIn_change written)

theorem runIn_readFile (found : runIn (readFile p) σ = (.ok text, σ')) : σ.files.read p = .ok text := by
  obtain ⟨files, τ, current, rest⟩ := runIn_bind_eq_ok.mp found
  cases current
  exact (Prod.mk.inj rest).1

/-- Whether an action comes to an end in some session. -/
def Ends (a : SessionM α) : Prop := ∃ σ x τ, a.runIn σ = (.ok x, τ)

section

variable {a : SessionM α} {f : α → SessionM β}

theorem Ends.left (ends : (a >>= f).Ends) : a.Ends := by
  obtain ⟨σ, x, τ, ran⟩ := ends
  obtain ⟨y, σ', first, -⟩ := runIn_bind_eq_ok.mp ran
  exact ⟨σ, y, σ', first⟩

theorem Ends.right (ends : (a >>= f).Ends) : ∃ x, (f x).Ends := by
  obtain ⟨σ, x, τ, ran⟩ := ends
  obtain ⟨y, σ', -, second⟩ := runIn_bind_eq_ok.mp ran
  exact ⟨y, σ', x, τ, second⟩

end

end SessionM

end Supermartingale
