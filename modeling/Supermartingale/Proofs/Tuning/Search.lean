import Supermartingale.Proofs.Input.Merging
import Supermartingale.Proofs.Session
import Supermartingale.Tuning

/-!
# What a search leaves behind

The value that a search returns is the last one that passed; the input that it leaves holds the last one that was
tested. So the two agree if the last test passed, and in general not otherwise.
-/

namespace Supermartingale

namespace Tuning

open SessionM (exists_of_runIn runIn runIn_bind_eq_ok runIn_change runIn_readFile runIn_writeFile)

variable (j : Job)

def Job.parameter (input : Value) : Except Error Value := do (← input.item j.group).item j.name

theorem parameter_setParameter {input changed v : Value} (set : setParameter input j.group j.name v = .ok changed) :
    j.parameter changed = .ok v := by
  obtain ⟨section', _, rest⟩ := bind_eq_ok.mp set
  obtain ⟨inner, _, rest⟩ := bind_eq_ok.mp rest
  obtain ⟨fields, _, rest⟩ := bind_eq_ok.mp rest
  cases rest
  simp [Job.parameter, Value.item, Value.find?_setField, bind, Except.bind]

/-! ## Tests -/

/-- A value that has been tested, and whether it passed. -/
structure Trial where
  value : Value
  passed : Bool

/-- The value of the last trial, or the first value if there was none. -/
def lastTried (start : Value) (trials : List Trial) : Value := (trials.getLast?.map Trial.value).getD start

/-- The value of the last trial that passed, or the first value if there was none. -/
def lastPassed (start : Value) (trials : List Trial) : Value := lastTried start (trials.filter Trial.passed)

variable (test : SessionM (Bool × Float))

/-- A step of the search: the value between the bounds is written into the input, the test is run on it, and the
value becomes one of the bounds. -/
structure Tries (s : Search) (t : Trial) (s' : Search) : Prop where
  middle : ∃ n, Tuning.middle j.place s.best s.upper = .ok n ∧ t.value = .number n
  input : setParameter s.input j.group j.name t.value = .ok s'.input
  tested : ∃ before after time runnable, runIn test before = (.ok (t.passed, time), after) ∧
    before.files.entry? j.inputPath = some (.file (Json.writeBlock s'.input) runnable)
  best : s'.best = if t.passed then t.value else s.best
  upper : s'.upper = if t.passed then s.upper else t.value

/-- The steps from one state of a search to another. -/
inductive Searches : Search → List Trial → Search → Prop where
  | nil (s : Search) : Searches s [] s
  | cons {s s' s'' : Search} {t : Trial} {ts : List Trial} (first : Tries j test s t s') (rest : Searches s' ts s'') :
      Searches s (t :: ts) s''

variable {j test}

variable {s s' : Search} {ts : List Trial}

theorem Searches.best (searches : Searches j test s ts s') : s'.best = lastPassed s.best ts := by
  induction searches with
  | nil s => rfl
  | @cons s s' s'' t ts first rest ih =>
    rw [ih, first.best]
    unfold lastPassed lastTried
    cases passed : t.passed with
    | false => simp [passed]
    | true => simp [passed, List.getLast?_cons]

theorem Searches.parameter (searches : Searches j test s ts s')
    (start : j.parameter s.input = .ok s.best) : j.parameter s'.input = .ok (lastTried s.best ts) := by
  have general {s s' : Search} {ts : List Trial} {v : Value} (searches : Searches j test s ts s')
      (start : j.parameter s.input = .ok v) : j.parameter s'.input = .ok (lastTried v ts) := by
    induction searches generalizing v with
    | nil s => exact start
    | @cons s s' s'' t ts first rest ih =>
      rw [ih (parameter_setParameter j first.input)]
      unfold lastTried
      simp [List.getLast?_cons]
  exact general searches start

theorem lastTried_eq_lastPassed (passed : ∀ t ∈ ts.getLast?, t.passed) (v : Value) :
    lastTried v ts = lastPassed v ts := by
  rcases List.eq_nil_or_concat ts with rfl | ⟨front, t, rfl⟩
  · rfl
  · have last : t.passed := passed t (by simp)
    simp [lastTried, lastPassed, List.filter_append, last]

/-! ## Runs -/

theorem attempt_tries {σ σ' : Session} (returned : runIn (attempt j test s) σ = (.ok s', σ')) :
    ∃ t, Tries j test s t s' := by
  unfold attempt at returned
  obtain ⟨value, σ₁, between, rest⟩ := runIn_bind_eq_ok.mp returned
  obtain ⟨_, σ₂, _, rest⟩ := runIn_bind_eq_ok.mp rest
  obtain ⟨input, σ₃, set, rest⟩ := runIn_bind_eq_ok.mp rest
  obtain ⟨_, σ₄, written, rest⟩ := runIn_bind_eq_ok.mp rest
  obtain ⟨⟨passed, time⟩, σ₅, tested, rest⟩ := runIn_bind_eq_ok.mp rest
  have between : middle j.place s.best s.upper = .ok value := (Prod.mk.inj between).1
  have set : setParameter s.input j.group j.name (.number value) = .ok input := (Prod.mk.inj set).1
  obtain ⟨runnable, stored⟩ := runIn_writeFile written
  cases passed with
  | false =>
    obtain ⟨_, σ₆, _, rest⟩ := runIn_bind_eq_ok.mp rest
    cases rest
    exact ⟨⟨.number value, false⟩, ⟨value, between, rfl⟩, set, ⟨σ₄, σ₅, time, runnable, tested, stored⟩, rfl, rfl⟩
  | true =>
    obtain ⟨_, σ₆, _, rest⟩ := runIn_bind_eq_ok.mp rest
    obtain ⟨_, σ₇, _, rest⟩ := runIn_bind_eq_ok.mp rest
    obtain ⟨_, σ₈, _, rest⟩ := runIn_bind_eq_ok.mp rest
    cases rest
    exact ⟨⟨.number value, true⟩, ⟨value, between, rfl⟩, set, ⟨σ₄, σ₅, time, runnable, tested, stored⟩, rfl, rfl⟩

theorem bisect_searches {n : ℕ} {σ σ' : Session} (returned : runIn (bisect j test n s) σ = (.ok s', σ')) :
    ∃ ts, ts.length ≤ n ∧ Searches j test s ts s' := by
  induction n generalizing s σ with
  | zero =>
    cases returned
    exact ⟨[], Nat.le_refl 0, .nil _⟩
  | succ n ih =>
    obtain ⟨next, σ₁, tried, rest⟩ := runIn_bind_eq_ok.mp returned
    obtain ⟨t, tries⟩ := attempt_tries tried
    obtain ⟨fine, σ₂, _, rest⟩ := runIn_bind_eq_ok.mp rest
    cases fine with
    | false =>
      obtain ⟨ts, few, searches⟩ := ih rest
      exact ⟨t :: ts, Nat.succ_le_succ few, .cons tries searches⟩
    | true =>
      obtain ⟨_, σ₃, _, rest⟩ := runIn_bind_eq_ok.mp rest
      cases rest
      exact ⟨[t], Nat.succ_le_succ (Nat.zero_le n), .cons tries (.nil _)⟩

/-- How a search starts: with the parameter of the input that is read. -/
structure Starts (j : Job) (σ : Session) (s : Search) : Prop where
  read : ∃ files text, j.clear σ.files = .ok files ∧ files.read j.input = .ok text ∧ Json.read text = .ok s.input
  best : j.parameter s.input = .ok s.best
  upper : s.upper = j.upper

/-- The value that a search returns is the last one that passed, or the one it started with. The input that it
leaves holds the last value that was tested, so this is the same value exactly if these two are, as they are if
the last test was passed. -/
theorem stored_eq_best_iff {σ σ' : Session} {s : Search} (returned : runIn (highestBy j test) σ = (.ok s, σ')) :
    ∃ (start : Search) (ts : List Trial) (stored : Value) (runnable : Bool),
      Starts j σ start ∧ ts.length ≤ j.rounds.toNat ∧ Searches j test start ts s ∧
      s.best = lastPassed start.best ts ∧
      σ'.files.entry? j.inputPath = some (.file (Json.writeBlock s.input) runnable) ∧
      j.parameter s.input = .ok stored ∧
      (stored = s.best ↔ lastTried start.best ts = lastPassed start.best ts) ∧
      ((∀ t ∈ ts.getLast?, t.passed) → stored = s.best) := by
  obtain ⟨_, σ₁, cleared, rest⟩ := runIn_bind_eq_ok.mp returned
  obtain ⟨text, σ₂, read, rest⟩ := runIn_bind_eq_ok.mp rest
  obtain ⟨input, σ₃, parsed, rest⟩ := runIn_bind_eq_ok.mp rest
  obtain ⟨group, σ₄, outer, rest⟩ := runIn_bind_eq_ok.mp rest
  obtain ⟨best, σ₅, inner, rest⟩ := runIn_bind_eq_ok.mp rest
  obtain ⟨_, σ₆, _, rest⟩ := runIn_bind_eq_ok.mp rest
  obtain ⟨last, σ₇, bisected, rest⟩ := runIn_bind_eq_ok.mp rest
  obtain ⟨_, σ₈, _, rest⟩ := runIn_bind_eq_ok.mp rest
  obtain ⟨_, σ₉, _, rest⟩ := runIn_bind_eq_ok.mp rest
  obtain ⟨_, τ, written, rest⟩ := runIn_bind_eq_ok.mp rest
  cases rest
  let start : Search := { best, upper := j.upper, input }
  have parameter : j.parameter start.input = .ok start.best :=
    bind_eq_ok.mpr ⟨group, (Prod.mk.inj outer).1, (Prod.mk.inj inner).1⟩
  have starts : Starts j σ start :=
    ⟨⟨_, text, runIn_change cleared, runIn_readFile read, (Prod.mk.inj parsed).1⟩, parameter, rfl⟩
  obtain ⟨ts, few, searches⟩ := bisect_searches bisected
  obtain ⟨runnable, stored⟩ := runIn_writeFile written
  refine ⟨start, ts, _, runnable, starts, few, searches, searches.best, stored, searches.parameter parameter, ?_, ?_⟩
  · rw [searches.best]
  · intro passed
    rw [searches.best, lastTried_eq_lastPassed passed]

def fifty : Session := { files := ⟨"/", [("/c.json", .file "\x7b\"g\": \x7b\"p\": 50\x7d\x7d" false)], []⟩ }

/-- A search below a hundred, in steps of ten. -/
def tens (rounds : Int) : Job where
  group := "g"
  name := "p"
  input := "/c.json"
  folder := "/"
  upper := .int 100
  precision := -2
  rounds := rounds

/-- A test that is only passed if a folder is there, which it makes. -/
def onceMore : SessionM (Bool × Float) := do
  let files ← SessionM.files
  SessionM.change (·.makeFolder "/s")
  return (files.exists? "/s", 0)

def isDouble (x : Float) : Value → Bool
  | .number (.double y) => y = x
  | _ => false

theorem eq_of_isDouble {x : Float} {v : Value} (same : isDouble x v) : v = .number (.double x) := by
  unfold isDouble at same
  split at same
  · rw [of_decide_eq_true same]
  · cases same

theorem tens_stored_eq_best : ∃ s σ' start ts, runIn (highestBy (tens 2) onceMore) fifty = (.ok s, σ') ∧
    (tens 2).parameter s.input = .ok s.best ∧ s.best.toText = "60.0" ∧ s.upper.toText = "80.0" ∧
    Searches (tens 2) onceMore start ts s ∧ lastTried start.best ts = lastPassed start.best ts := by
  have shown : (runIn (highestBy (tens 2) onceMore) fifty).1.toOption.any fun s =>
      ((tens 2).parameter s.input).toOption.any (isDouble 60) && isDouble 60 s.best && s.upper.toText == "80.0" := by
    decide +kernel
  obtain ⟨s, σ', returned, checked⟩ := exists_of_runIn shown
  obtain ⟨values, upper⟩ := Bool.and_eq_true_iff.mp checked
  obtain ⟨left, right⟩ := Bool.and_eq_true_iff.mp values
  obtain ⟨stored, parameter, kept⟩ := exists_of_any left
  have best := eq_of_isDouble right
  have equal : stored = s.best := (eq_of_isDouble kept).trans best.symm
  obtain ⟨start, ts, _, _, _, _, searches, _, _, same, agree, _⟩ := stored_eq_best_iff returned
  cases same.symm.trans parameter
  exact ⟨s, σ', start, ts, returned, equal ▸ parameter, best ▸ by decide +kernel, by simpa using upper, searches,
    agree.mp equal⟩

theorem stored_ne_best : ∃ (j : Job) (test : SessionM (Bool × Float)) (σ σ' : Session) (s : Search) (stored : Value),
    runIn (highestBy j test) σ = (.ok s, σ') ∧ j.parameter s.input = .ok stored ∧
    stored.toText = "80.0" ∧ s.best.toText = "50" ∧ stored ≠ s.best := by
  have shown : (runIn (highestBy (tens 1) (pure (false, 0))) fifty).1.toOption.any fun s =>
      ((tens 1).parameter s.input).toOption.any (·.toText == "80.0") && s.best.toText == "50" := by
    decide +kernel
  obtain ⟨s, σ', returned, checked⟩ := exists_of_runIn shown
  obtain ⟨left, best⟩ := Bool.and_eq_true_iff.mp checked
  obtain ⟨stored, parameter, text⟩ := exists_of_any left
  rw [beq_iff_eq] at text best
  refine ⟨_, _, fifty, σ', s, stored, returned, parameter, text, best, fun same => ?_⟩
  rw [same, best] at text
  exact absurd text (by decide)

end Tuning

end Supermartingale
