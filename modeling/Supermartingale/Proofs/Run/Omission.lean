import Supermartingale.Benchmark
import Supermartingale.Proofs.Input.Merging
import Supermartingale.Proofs.Session

/-!
# What a configuration leaves out

A field that no file has is read as nothing. Nothing is no list of policies, so a configuration without policies fails
where one with an empty list has them synthesised. Nothing is no path either: a run needs the path of a translator
that it never calls. The formula is only asked for by the summary of a benchmark.
-/

namespace Supermartingale

open Specification Value Input

variable {here base : String} {a b : Fields} {i : Input}

theorem Value.find?_setFields_isSome {fields : Fields} {s : String} (there : (find? fields s).isSome) (more : Fields) :
    (find? (setFields fields more) s).isSome := by
  have kept (fields : Fields) (k : Key) (v : Value) (there : (find? fields s).isSome) :
      (find? (setField fields k v) s).isSome := by
    simp only [find?, Option.isSome_map, List.find?_isSome, setField] at there ⊢
    obtain ⟨⟨l, w⟩, mem, same⟩ := there
    split
    · refine ⟨_, List.mem_map_of_mem mem, ?_⟩
      dsimp only
      split <;> exact same
    · exact ⟨_, List.mem_append_left _ mem, same⟩
  induction more generalizing fields with
  | nil => exact there
  | cons field more ih => exact ih (kept fields field.1 field.2 there)

/-- A section that no file has is an empty one. -/
theorem Input.find?_merged_isSome {files : Files} {paths : List String} {m : Fields} (made : merged files paths = .ok m)
    {s : String} (listed : s ∈ fieldNames) : (find? m s).isSome := by
  obtain ⟨json, -, made⟩ := bind_eq_ok.mp made
  obtain ⟨yaml, -, made⟩ := bind_eq_ok.mp made
  cases made
  refine find?_setFields_isSome (find?_setFields_isSome ?_ json) yaml
  rw [find?_start.mpr ⟨listed, rfl⟩]
  rfl

/-! ## Policies -/

/-- Without policies and with an action there is no decomposed policy. -/
theorem omitted_policies_fail (read : ofFields here base a = .ok i)
    (same : Input.SameBut [("actions", "control_policy")] a b) (absent : got b "actions" "control_policy" = .null) :
    (∀ {files paths m}, merged files paths = .ok m → ∀ s ∈ fieldNames, (find? m s).isSome) ∧
    ∃ j, ofFields here base b = .ok j ∧ ∀ sets shelf, j.actions.policy sets shelf =
      if i.actions.actions.isInt 0 then i.actions.policy sets shelf else .error .misapplied := by
  refine ⟨fun merged _ => find?_merged_isSome merged, _,
    by rw [ofFields_sameBut (same.mono (by simp)) fun _ _ => rfl, read, absent]; rfl, fun sets shelf => ?_⟩
  simp only [ActionInput.policy, DecomposedPolicy.make]
  split
  · rfl
  · rfl

/-- A configuration of a walk on a line. -/
def walkFields (actions specification : List (String × Value)) (translator : Value) : Fields := named [
  ("actions", .record actions),
  ("disturbance", .record [("distribution_name", .text "normal"), ("disturbance_parameters", .record [])]),
  ("stochastic_dynamical_system", .record [("state_space_dimension", .number (.int 1)),
    ("control_space_dimension", .number (.int 1)), ("disturbance_space_dimension", .number (.int 1)),
    ("dynamics", .list []), ("system_space", .text ""), ("initial_space", .text "")]),
  ("synthesis_config", .record [("maximal_polynomial_degree", .number (.int 1)),
    ("probability_threshold", .number (.int 1)),
    ("theorem_name", .text "farkas"), ("solver_name", .text "z3"), ("owl_path", translator)]),
  ("specification", .record specification)]

theorem walkFields_sameBut {changed : List (String × String)} {as as' ss ss' : List (String × Value)} (t : Value)
    (actions : ∀ k, ("actions", k) ∉ changed → find? (named as) k = find? (named as') k)
    (specified : ∀ k, ("specification", k) ∉ changed → find? (named ss) k = find? (named ss') k) :
    Input.SameBut changed (walkFields as ss t) (walkFields as' ss' t) := by
  intro s listed
  simp only [fieldNames, List.mem_cons, List.not_mem_nil, or_false] at listed
  rcases listed with rfl | rfl | rfl | rfl | rfl
  · exact ⟨_, _, rfl, rfl, actions⟩
  · exact ⟨_, _, rfl, rfl, fun _ _ => rfl⟩
  · exact ⟨_, _, rfl, rfl, fun _ _ => rfl⟩
  · exact ⟨_, _, rfl, rfl, fun _ _ => rfl⟩
  · exact ⟨_, _, rfl, rfl, specified⟩

theorem walk_fails_without_policies : ∃ j, ofFields "/" "/" (walkFields [] [] .null) = .ok j ∧
    ∀ sets shelf, j.actions.policy sets shelf = .error .misapplied := by
  have same : Input.SameBut [("actions", "control_policy")] (walkFields [("control_policy", .list [])] [] .null)
      (walkFields [] [] .null) :=
    walkFields_sameBut .null (fun k other => find?_cons_of_ne (by simpa [eq_comm] using other) _ _) fun _ _ => rfl
  exact (omitted_policies_fail rfl same rfl).2

theorem walk_synthesises_policies : ((ofFields "/" "/" (walkFields [("control_policy", .list [])] [] .null)).bind
      (·.actions.policy 1 {})).isOk ∧
    ((ofFields "/" "/" (walkFields [] [] .null)).bind (·.actions.policy 1 {})).isOk = false := by
  decide +kernel

/-! ## Automata without a formula -/

def Input.unnamed (i : Input) : Input := { i with specification.formula := .null }

theorem Specification.exists_translator {formula lookup translator automaton : Value}
    (ends : (make formula lookup translator automaton).Ends) : ∃ path, translator = .text path := by
  obtain ⟨_, ends⟩ := ends.right
  have text {f : String → SessionM Specification} (ends : (liftM translator.toTextOnly >>= f).Ends) :
      ∃ path, translator = .text path := by
    obtain ⟨σ, path, τ, read⟩ := ends.left
    cases translator with
    | text path => exact ⟨path, rfl⟩
    | _ => cases read
  dsimp only at ends
  by_cases bare : automaton.isEmpty
  · rw [if_pos bare] at ends
    obtain ⟨_, ends⟩ := ends.right
    exact text ends
  · rw [if_neg bare] at ends
    iterate 4 obtain ⟨_, ends⟩ := ends.right
    exact text ends

namespace Run

variable {p : Place} {r : Parsed}

/-- A run that comes to an end has a translator, even if the automaton is given. -/
theorem exists_translator (ends : (rest p r).Ends) : ∃ path, r.input.specification.translator = .text path := by
  simp only [rest, announced, prepare, construct, bind_assoc, pure_bind] at ends
  iterate 11 obtain ⟨_, ends⟩ := ends.right
  exact Specification.exists_translator ends.left

theorem construct_unnamed (r : Prepared) (given : r.input.specification.automaton.isEmpty = false) :
    construct p { r with input := r.input.unnamed } =
      (fun r => { r with input := r.input.unnamed }) <$> construct p r := by
  have given' : r.input.unnamed.specification.automaton.isEmpty = false := given
  simp only [construct, make, automatonText, given, given', Bool.false_eq_true, if_false,
    Bool.and_false, bind_assoc, pure_bind, map_bind, map_pure]
  iterate 12 refine bind_congr fun _ => ?_
  split <;> rfl

theorem control_unnamed (r : Constructed) :
    control { r with input := r.input.unnamed } = (fun r => { r with input := r.input.unnamed }) <$> control r := by
  simp only [control, map_bind, map_pure]
  rfl

theorem enclose_unnamed (r : Controlled) :
    enclose { r with input := r.input.unnamed } = (fun r => { r with input := r.input.unnamed }) <$> enclose r := by
  simp only [enclose, apply_ite (Functor.map _), map_bind, map_pure]
  rfl

theorem template_unnamed (r : Enclosed) :
    template { r with input := r.input.unnamed } = (fun r => { r with input := r.input.unnamed }) <$> template r := by
  simp only [template, map_bind, map_pure]
  rfl

theorem constrain_unnamed (r : Templated) :
    constrain { r with input := r.input.unnamed } = (fun r => { r with input := r.input.unnamed }) <$> constrain r := by
  simp only [constrain, apply_ite (Functor.map _), map_bind, map_pure]

theorem query_unnamed (r : Constrained) :
    query p { r with input := r.input.unnamed } = (fun r => { r with input := r.input.unnamed }) <$> query p r := by
  simp only [query, map_bind, map_pure]

theorem solve_unnamed (r : Queried) :
    solve { r with input := r.input.unnamed } = (fun r => { r with input := r.input.unnamed }) <$> solve r := by
  simp only [solve, map_bind, map_pure]

theorem rest_unnamed (r : Parsed) (given : r.input.specification.automaton.isEmpty = false) :
    rest p { r with input := r.input.unnamed } = (fun r => { r with input := r.input.unnamed }) <$> rest p r := by
  have built (noise : Noise) (settings : Settings) : construct p ⟨⟨r.input.unnamed⟩, noise, settings⟩ =
      (fun r => { r with input := r.input.unnamed }) <$> construct p ⟨r, noise, settings⟩ :=
    construct_unnamed ⟨r, noise, settings⟩ given
  simp only [rest, announced, prepare, bind_assoc, pure_bind, built, bind_map_left, control_unnamed, enclose_unnamed,
    template_unnamed, constrain_unnamed, query_unnamed, solve_unnamed, map_bind, map_pure]
  rfl

end Run

theorem Benchmark.Summary.add_unnamed {s t : Summary} {r : Answered} {duration : Float} :
    s.add { r with input := i.unnamed } duration = .ok t ↔ i.specification.lookup = .object [] ∧
      ∃ t', s.add { r with input := i } duration = .ok t' ∧ t = { t' with specification := .null } := by
  cases lookup : i.specification.lookup with
  | object fields =>
    cases fields with
    | nil =>
      obtain ⟨v, shown⟩ : ∃ v, reading i.specification.formula [] = .ok v := by
        cases i.specification.formula <;> exact ⟨_, rfl⟩
      simp only [add, unnamed, lookup, Value.fields, ok_bind, shown]
      constructor
      · intro made
        cases made
        exact ⟨trivial, _, rfl, rfl⟩
      · rintro ⟨-, t', made, rfl⟩
        cases made
        rfl
    | cons field fields => simp [add, unnamed, lookup, Value.fields, reading, bind, Except.bind]
  | _ => simp [add, unnamed, lookup, Value.fields, bind, Except.bind]

open Run in
/-- An automaton without the path of a translator is not enough. Without the formula it is enough for the run, and for
the benchmark if no propositions are to be shown. -/
theorem automaton_alone (p : Place) :
    (∀ {here base b j}, ofFields here base b = .ok j → got b "synthesis_config" "owl_path" = .null →
      ¬ (rest p ⟨j⟩).Ends) ∧
    ∀ {here base a b i}, ofFields here base a = .ok i → i.specification.automaton.isEmpty = false →
      Input.SameBut [("specification", "ltl_formula")] a b → got b "specification" "ltl_formula" = .null →
      ofFields here base b = .ok i.unnamed ∧
      rest p ⟨i.unnamed⟩ = (fun r => { r with input := r.input.unnamed }) <$> rest p ⟨i⟩ ∧
      ∀ (s t : Benchmark.Summary) (r : Answered) duration, s.add { r with input := i.unnamed } duration = .ok t ↔
        i.specification.lookup = .object [] ∧
          ∃ t', s.add { r with input := i } duration = .ok t' ∧ t = { t' with specification := .null } := by
  refine ⟨fun read absent ends => ?_, fun {_ _ a b i} read given same absent =>
    ⟨?_, rest_unnamed ⟨_⟩ given, fun _ _ _ _ => Benchmark.Summary.add_unnamed⟩⟩
  · obtain ⟨path, text⟩ := exists_translator ends
    have resolved := (holds_of_ofFields read).translator
    rw [absent] at resolved
    cases (Except.ok.inj resolved).trans text
  · have policies := (same.got_eq (by decide) (by decide)).trans (holds_of_ofFields read).policies
    rw [ofFields_sameBut (same.mono (by simp)) fun _ _ => rfl, read, policies, absent]
    rfl

def bareFields (translator : Value) : Fields := walkFields [] [("hoa_path", .text "/a.hoa")] translator

theorem walk_with_automaton_alone :
    (∃ j, ofFields "/" "/" (bareFields .null) = .ok j ∧ ¬ (Run.rest ⟨"/c.json", "/temp"⟩ ⟨j⟩).Ends) ∧
    ∃ i, ofFields "/" "/" (walkFields [] [("ltl_formula", .text "F a"), ("hoa_path", .text "/a.hoa")] (.text "/owl")) =
      .ok i ∧ ofFields "/" "/" (bareFields (.text "/owl")) = .ok i.unnamed := by
  have same : Input.SameBut [("specification", "ltl_formula")]
      (walkFields [] [("ltl_formula", .text "F a"), ("hoa_path", .text "/a.hoa")] (.text "/owl"))
      (bareFields (.text "/owl")) :=
    walkFields_sameBut _ (fun _ _ => rfl) fun k other => find?_cons_of_ne (by simpa [eq_comm] using other) _ _
  have read : ofFields "/" "/" (bareFields .null) = .ok _ := rfl
  obtain ⟨none, alone⟩ := automaton_alone ⟨"/c.json", "/temp"⟩
  exact ⟨⟨_, read, none read rfl⟩, _, rfl, (alone rfl rfl same rfl).1⟩

theorem make_needs_translator :
    let made (formula translator : Value) := (make formula (.object []) translator (.text "/a.hoa")).runIn
      ⟨⟨"/", [("/a.hoa", .file "HOA: v1" false)], []⟩, [], {}, ""⟩
    (made (.text "F a") (.text "/owl")).1.isOk ∧ (made .null .null).1.isOk = false := by
  decide +kernel

end Supermartingale
