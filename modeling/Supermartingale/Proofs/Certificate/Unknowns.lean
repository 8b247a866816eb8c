import Supermartingale.Invariant
import Supermartingale.Proofs.Polynomial.Generic

/-!
# The unknowns of a run

The constants of a run are named after a base, the number of a template and the number of a row. The last two can be
read off the end of a name, and the bases of the policies, of a certificate and of an invariant differ.
-/

namespace Supermartingale

open List DecomposedPolicy Powers Certificate Invariant

variable {shelf : Powers.Shelf} {e : Equation}

/-! ## Names -/

theorem append_underscore_inj {s t : String} {i j : ℕ}
    (same : s ++ "_" ++ toString i = t ++ "_" ++ toString j) : s = t ∧ i = j := by
  have chars := congrArg String.toList same
  have spelled (s : String) (i : ℕ) : (s ++ "_" ++ toString i).toList.reverse =
      (Nat.toDigits 10 i).reverse ++ '_' :: s.toList.reverse := by
    rw [String.toList_append, String.toList_append, toList_toString_nat]
    simp
  have backward := congrArg List.reverse chars
  rw [spelled, spelled] at backward
  -- read from the end, the first underscore stands in front of the number
  have cut (i : ℕ) (cs : List Char) :
      ((Nat.toDigits 10 i).reverse ++ '_' :: cs).dropWhile (· != '_') = '_' :: cs := by
    have digits : ∀ c ∈ (Nat.toDigits 10 i).reverse, (c != '_') = true := by
      intro c mem
      have digit := isDigit_toDigits _ _ (mem_reverse.mp mem)
      simpa using fun equal : c = '_' => absurd (equal ▸ digit) (by decide)
    rw [dropWhile_append_of_pos digits]
    simp
  have front := cut i s.toList.reverse
  rw [backward, cut] at front
  have stems : s = t := String.toList_injective (reverse_injective (List.cons.inj front).2.symm)
  subst stems
  exact ⟨rfl, append_toString_injective (s ++ "_") same⟩

def unknownName (base : String) (i j : ℕ) : String := base ++ "_" ++ toString i ++ "_" ++ toString j

theorem unknownName_inj {b b' : String} {i i' j j' : ℕ} (same : unknownName b i j = unknownName b' i' j') :
    b = b' ∧ i = i' ∧ j = j' := by
  obtain ⟨stems, rows⟩ := append_underscore_inj same
  obtain ⟨bases, templates⟩ := append_underscore_inj stems
  exact ⟨bases, templates, rows⟩

theorem getLast?_unknownName (base : String) (i j : ℕ) :
    ∃ c, (unknownName base i j).toList.getLast? = some c ∧ c.isDigit := by
  have nonempty : Nat.toDigits 10 j ≠ [] := Nat.toDigits_ne_nil
  obtain ⟨c, last⟩ : ∃ c, (Nat.toDigits 10 j).getLast? = some c := ⟨_, List.getLast?_eq_some_getLast nonempty⟩
  refine ⟨c, ?_, isDigit_toDigits j c (mem_of_getLast? last)⟩
  rw [unknownName, String.toList_append, toList_toString_nat, List.getLast?_append, last]
  rfl

/-- Templates with a base and the numbers of the templates. -/
structure Batch where
  base : String
  numbers : List ℕ
  rows : ℕ

namespace Batch

def names (b : Batch) : List String :=
  b.numbers.flatMap fun i => (List.range b.rows).map fun j => unknownName b.base i (j + 1)

theorem length_names (b : Batch) : b.names.length = b.numbers.length * b.rows := by
  simp [names, length_flatMap]

theorem nodup_names {b : Batch} (distinct : b.numbers.Nodup) : b.names.Nodup := by
  refine nodup_flatMap.mpr ⟨fun i _ => nodup_range.map fun j j' same => ?_, ?_⟩
  · exact Nat.succ_injective (unknownName_inj same).2.2
  · refine distinct.imp fun {i i'} different => ?_
    intro s left right
    obtain ⟨j, _, rfl⟩ := mem_map.mp left
    obtain ⟨j', _, same⟩ := mem_map.mp right
    exact different (unknownName_inj same).2.1.symm

theorem nodup_flatMap_names {batches : List Batch} (bases : (batches.map base).Nodup)
    (distinct : ∀ b ∈ batches, b.numbers.Nodup) : (batches.flatMap names).Nodup := by
  refine nodup_flatMap.mpr ⟨fun b mem => nodup_names (distinct b mem), ?_⟩
  refine (pairwise_map.mp bases).imp fun {b b'} different => ?_
  intro s left right
  obtain ⟨i, _, inner⟩ := mem_flatMap.mp left
  obtain ⟨j, _, rfl⟩ := mem_map.mp inner
  obtain ⟨i', _, inner'⟩ := mem_flatMap.mp right
  obtain ⟨j', _, same⟩ := mem_map.mp inner'
  exact different (unknownName_inj same).1.symm

theorem not_mem_names_of_parameter {s : String} (parameter : s ∈ CertificateVariables.constants)
    (b : Batch) : s ∉ b.names := by
  intro mem
  obtain ⟨i, _, inner⟩ := mem_flatMap.mp mem
  obtain ⟨j, _, rfl⟩ := mem_map.mp inner
  obtain ⟨c, last, digit⟩ := getLast?_unknownName b.base i (j + 1)
  have ends : ∀ s ∈ CertificateVariables.constants, s.toList.getLast?.all (!·.isDigit) := by decide
  have letter := ends _ parameter
  rw [last] at letter
  simp [digit] at letter

theorem nodup_append_parameters {batches : List Batch} (bases : (batches.map base).Nodup)
    (distinct : ∀ b ∈ batches, b.numbers.Nodup) :
    (batches.flatMap names ++ CertificateVariables.constants).Nodup := by
  refine nodup_append'.mpr ⟨nodup_flatMap_names bases distinct, by decide, fun s left right => ?_⟩
  obtain ⟨b, _, mem⟩ := mem_flatMap.mp left
  exact not_mem_names_of_parameter right b mem

end Batch

/-! ## Templates that are made -/

namespace Powers

theorem flatMap_constants_table (base : String) (numbers : List ℕ) (d n : ℕ) :
    (numbers.map fun i => base ++ "_" ++ toString i).flatMap (fun s => constants s (table d n)) =
      Batch.names ⟨base, numbers, (n + d).choose n⟩ := by
  rw [flatMap_map, Batch.names]
  refine flatMap_congr fun i _ => ?_
  rw [constants_table, length_table]
  rfl

end Powers

def Certificate.unknowns (es : List Equation) : List String :=
  es.flatMap fun e => e.monomials.flatMap Monomial.constants

theorem unknowns_template (base : String) (numbers : List ℕ) (n d : ℕ) :
    unknowns ((numbers.map fun i => base ++ "_" ++ toString i).map (template n d)) =
      Batch.names ⟨base, numbers, (n + d).choose n⟩ := by
  rw [← Powers.flatMap_constants_table, unknowns, flatMap_map]
  refine flatMap_congr fun stem _ => ?_
  exact flatMap_constants_equation (equation_eq_template n d stem) (plain_stateNames n)

def Family.templates (f : Family) : List Equation := f.equations.map (·.2)

def Family.generic (n d : ℕ) (base : String) (count : ℕ) : Family where
  equations := (List.range count).map fun i => (toString i, template n d (base ++ "_" ++ toString i))
  constants := Batch.names ⟨base, List.range count, (n + d).choose n⟩

theorem Family.make_table (n d : ℕ) (base : String) (count : ℕ) :
    make (stateNames n) base count (Powers.table d n) = .ok (generic n d base count) := by
  have stems : ((List.range count).map fun i => (toString i, base ++ "_" ++ toString i)).mapM
      (fun x => do return (x.1, ← equation (stateNames n) x.2 (Powers.table d n))) =
        .ok (generic n d base count).equations := by
    refine mapM_eq_ok.mpr ?_
    rw [generic, forall₂_map_left_iff, forall₂_map_right_iff, forall₂_same]
    intro i _
    exact bind_eq_ok.mpr ⟨_, equation_eq_template n d _, rfl⟩
  refine bind_eq_ok.mpr ⟨_, stems, ?_⟩
  have names : ((List.range count).map fun i => (toString i, base ++ "_" ++ toString i)).flatMap
      (fun x => Powers.constants x.2 (Powers.table d n)) = (generic n d base count).constants := by
    rw [generic, ← Powers.flatMap_constants_table, flatMap_map, flatMap_map]
  have distinct : (generic n d base count).constants.Nodup := Batch.nodup_names nodup_range
  rw [names, eraseDups_of_nodup distinct]
  rfl

theorem Family.unknowns_generic (n d : ℕ) (base : String) (count : ℕ) :
    unknowns (generic n d base count).templates = (generic n d base count).constants := by
  rw [templates, generic, map_map, ← unknowns_template, map_map]
  rfl

theorem Family.length_constants (n d : ℕ) (base : String) (count : ℕ) :
    (generic n d base count).constants.length = count * (n + d).choose n := by
  simp [generic, Batch.length_names]

theorem Template.exists_make (kind : TemplateKind) (number : Option ℤ)
    (numbered : kind = .live → number.isSome) (actions : Value) (n d count : ℕ) (sound : shelf.Sound) :
    ∃ shelf', make kind number (.ofNat n) actions (.ofNat d) count (stateNames n) shelf =
      .ok (⟨kind, .ofNat n, actions, count, .ofNat d,
        .generic n d (kind.signature ++ number.elim "" toString) count⟩, shelf') ∧ shelf'.Sound := by
  obtain ⟨shelf', got, kept⟩ := sound.exists_get d n
  refine ⟨shelf', ?_, kept⟩
  have allowed : ¬ (kind = .live && number.isNone) = true := by
    simp only [Bool.and_eq_true, decide_eq_true_eq, Option.isNone_iff_eq_none, not_and]
    exact fun live => Option.isSome_iff_ne_none.mp (numbered live)
  rw [make, if_neg allowed]
  exact bind_eq_ok.mpr ⟨_, got, bind_eq_ok.mpr ⟨_, Family.make_table n d _ count, rfl⟩⟩

theorem InvariantTemplate.exists_make (actions : Value) (n d count : ℕ) (sound : shelf.Sound) :
    ∃ shelf', make (.ofNat n) actions (.ofNat d) count shelf =
      .ok (⟨.ofNat n, actions, count, .ofNat d, stateNames n, .generic n d "I" count⟩, shelf') ∧
        shelf'.Sound := by
  obtain ⟨shelf', got, kept⟩ := sound.exists_get d n
  refine ⟨shelf', ?_, kept⟩
  exact bind_eq_ok.mpr ⟨n, rfl, bind_eq_ok.mpr ⟨_, got, bind_eq_ok.mpr ⟨_, Family.make_table n d _ count, rfl⟩⟩⟩

def Policy.generic (goal : PolicyGoal) (m n d : ℕ) (stem : String) : Policy where
  goal := goal
  states := .ofNat n
  actions := .ofNat m
  mode := .synthesis
  transitions := (List.range m).map fun i => template n d (actionStem stem (i + 1))
  found := Batch.names ⟨stem, (List.range m).map (· + 1), (n + d).choose n⟩

theorem Value.not_isInt_zero {m : ℕ} (active : 1 ≤ m) : ¬ (Value.ofNat m).isInt 0 = true := by
  simp [isInt, ofNat, int, number?, Number.same]
  omega

theorem Policy.exists_make (goal : PolicyGoal) {m : ℕ} (active : 1 ≤ m) (n d : ℕ) {stem : String}
    (named : stem.isEmpty = false) (sound : shelf.Sound) :
    ∃ shelf', make goal (.ofNat m) (.ofNat n) (.ofNat d) [] stem shelf =
      .ok (generic goal m n d stem, shelf') ∧ shelf'.Sound := by
  obtain ⟨shelf', got, kept⟩ := sound.exists_get d n
  refine ⟨shelf', ?_, kept⟩
  have templates : ((List.range m).map fun i => actionStem stem (i + 1)).mapM
      (fun s => equation (stateNames n) s (Powers.table d n)) =
        .ok (generic goal m n d stem).transitions := by
    refine mapM_eq_ok.mpr ?_
    rw [generic, forall₂_map_left_iff, forall₂_map_right_iff, forall₂_same]
    exact fun i _ => equation_eq_template n d _
  have names : ((List.range m).map fun i => actionStem stem (i + 1)).flatMap
      (fun s => Powers.constants s (Powers.table d n)) = (generic goal m n d stem).found := by
    rw [generic, ← Powers.flatMap_constants_table, map_map]
    rfl
  have distinct : ((List.range m).map (· + 1)).Nodup := nodup_range.map (add_left_injective 1)
  rw [make, if_neg (Value.not_isInt_zero active), if_pos (by simp), synthesise, if_neg (by simp [named])]
  refine bind_eq_ok.mpr ⟨_, got, bind_eq_ok.mpr ⟨n, rfl, bind_eq_ok.mpr ⟨m, rfl, ?_⟩⟩⟩
  refine bind_eq_ok.mpr ⟨_, templates, ?_⟩
  rw [names, generic, eraseDups_of_nodup (Batch.nodup_names distinct)]
  rfl

namespace DecomposedPolicy

variable {n d k m : ℕ} {shelf : Powers.Shelf}

def templates (p : DecomposedPolicy) : List Equation := p.policies.flatMap (·.transitions)

theorem exists_synthesiseAll {m : ℕ} (active : 1 ≤ m) (n d : ℕ) (parts : List (String × PolicyGoal))
    (named : ∀ part ∈ parts, part.1.isEmpty = false) (sound : shelf.Sound) :
    ∃ shelf', synthesiseAll (.ofNat m) (.ofNat n) (.ofNat d) parts shelf =
      .ok (parts.map fun part => .generic part.2 m n d part.1, shelf') ∧ shelf'.Sound := by
  induction parts generalizing shelf with
  | nil => exact ⟨shelf, rfl, sound⟩
  | cons part parts ih =>
    rw [forall_mem_cons] at named
    obtain ⟨shelf₁, made, kept⟩ := Policy.exists_make part.2 active n d named.1 sound
    obtain ⟨shelf₂, rest, last⟩ := ih named.2 kept
    exact ⟨shelf₂, bind_eq_ok.mpr ⟨_, made, bind_eq_ok.mpr ⟨_, rest, rfl⟩⟩, last⟩

def batches (n d k m : ℕ) : List Batch :=
  (parts k).map fun part => ⟨part.1, (List.range m).map (· + 1), (n + d).choose n⟩

theorem nodup_bases (n d k m : ℕ) : ((batches n d k m).map Batch.base).Nodup := by
  have stems : (batches n d k m).map Batch.base = "Pa" :: (List.range k).map fun i => "Pb" ++ toString i := by
    simp [batches, parts]
  rw [stems]
  refine nodup_cons.mpr ⟨fun mem => ?_, nodup_range.map (append_toString_injective "Pb")⟩
  obtain ⟨i, _, same⟩ := mem_map.mp mem
  have second := congrArg (fun s => s.toList[1]?) same
  simp at second

theorem numbers_of_mem_batches {b : Batch} (mem : b ∈ batches n d k m) :
    b.numbers = (List.range m).map (· + 1) ∧ b.rows = (n + d).choose n := by
  obtain ⟨part, _, rfl⟩ := mem_map.mp mem
  exact ⟨rfl, rfl⟩

theorem nodup_numbers : ∀ b ∈ batches n d k m, b.numbers.Nodup := by
  intro b mem
  rw [(numbers_of_mem_batches mem).1]
  exact nodup_range.map (add_left_injective 1)

theorem length_batches (n d k m : ℕ) :
    ((batches n d k m).flatMap Batch.names).length = (k + 1) * m * (n + d).choose n := by
  have each : ∀ b ∈ batches n d k m, b.names.length = m * (n + d).choose n := by
    intro b mem
    obtain ⟨numbers, rows⟩ := numbers_of_mem_batches mem
    rw [b.length_names, numbers, rows, length_map, length_range]
  rw [length_flatMap, map_congr_left each, map_const', sum_replicate]
  simp [batches, parts, Nat.mul_assoc]

def generic (n d k m : ℕ) (limits : List (String × Value)) : DecomposedPolicy where
  actions := .ofNat m
  states := .ofNat n
  policies := (parts k).map fun part => .generic part.2 m n d part.1
  limits := limits
  constants := (batches n d k m).flatMap Batch.names

theorem exists_make {m : ℕ} (active : 1 ≤ m) (n d k : ℕ) {given : Value} {members : List Value}
    (listed : given.members = .ok members) (ungiven : ∀ v ∈ members, v.isEmpty)
    (limits : List (String × Value)) (sound : shelf.Sound) :
    ∃ shelf', make (.ofNat m) (.ofNat n) (.ofNat d) k given limits shelf =
      .ok (generic n d k m limits, shelf') ∧ shelf'.Sound := by
  have named : ∀ part ∈ parts k, part.1.isEmpty = false := by
    intro part mem
    rcases mem_cons.mp mem with rfl | mem
    · rfl
    · obtain ⟨i, _, rfl⟩ := mem_map.mp mem
      simp
  obtain ⟨shelf', made, kept⟩ := exists_synthesiseAll active n d (parts k) named sound
  refine ⟨shelf', ?_, kept⟩
  have constants : ((parts k).map fun part => Policy.generic part.2 m n d part.1).flatMap (·.found) =
      (batches n d k m).flatMap Batch.names := by
    rw [flatMap_map, batches, flatMap_map]
    rfl
  rw [make, if_neg (Value.not_isInt_zero active)]
  refine bind_eq_ok.mpr ⟨members, listed, ?_⟩
  rw [if_neg (by simpa using ungiven)]
  refine bind_eq_ok.mpr ⟨_, made, ?_⟩
  dsimp only
  rw [constants, eraseDups_of_nodup (Batch.nodup_flatMap_names (nodup_bases n d k m) nodup_numbers)]
  rfl

theorem unknowns_generic (n d k m : ℕ) (limits : List (String × Value)) :
    unknowns (generic n d k m limits).templates = (generic n d k m limits).constants := by
  rw [unknowns, templates, generic, flatMap_assoc, flatMap_map, batches, flatMap_map]
  dsimp only
  refine flatMap_congr fun part _ => ?_
  rw [← unknowns_template, map_map, map_map]
  rfl

theorem exists_template {limits : List (String × Value)} {e : Equation}
    (mem : e ∈ (generic n d k m limits).templates) : ∃ stem, e = template n d stem := by
  obtain ⟨q, policy, mem⟩ := mem_flatMap.mp mem
  obtain ⟨part, _, rfl⟩ := mem_map.mp policy
  obtain ⟨i, _, rfl⟩ := mem_map.mp mem
  exact ⟨_, rfl⟩

end DecomposedPolicy

theorem Family.exists_template {n d : ℕ} {base : String} {count : ℕ}
    (mem : e ∈ (generic n d base count).templates) : ∃ stem, e = template n d stem := by
  obtain ⟨entry, inside, rfl⟩ := mem_map.mp mem
  obtain ⟨i, _, rfl⟩ := mem_map.mp inside
  exact ⟨_, rfl⟩

def Certificate.batches (n d count : ℕ) (bases : List String) : List Batch :=
  bases.map fun base => ⟨base, List.range count, (n + d).choose n⟩

def Certificate.templates (c : Certificate) : List Equation := c.safe.family.templates ++ c.live.family.templates

theorem Certificate.exists_make (actions : Value) (n d count sets : ℕ) (parameters : CertificateVariables)
    (sound : shelf.Sound) :
    ∃ c shelf', make (.ofNat n) actions (.ofNat d) count sets parameters shelf = .ok (c, shelf') ∧
      shelf'.Sound ∧ c.safe.family = .generic n d "V_safe" count ∧
      c.live.family = .generic n d "V_live0" count ∧
      c.constants = (batches n d count ["V_safe", "V_live0"]).flatMap Batch.names ++
        CertificateVariables.constants := by
  obtain ⟨shelf₁, live, kept⟩ := Template.exists_make .live (some 0) (fun _ => rfl) actions n d count sound
  obtain ⟨shelf₂, safe, last⟩ := Template.exists_make .safe none (by simp) actions n d count kept
  have distinct : ((batches n d count ["V_safe", "V_live0"]).flatMap Batch.names ++
      CertificateVariables.constants).Nodup := by
    refine Batch.nodup_append_parameters (by simp [batches]) ?_
    intro b mem
    obtain ⟨base, _, rfl⟩ := mem_map.mp mem
    exact nodup_range
  refine ⟨_, shelf₂, bind_eq_ok.mpr ⟨n, rfl, bind_eq_ok.mpr ⟨_, live, bind_eq_ok.mpr ⟨_, safe, rfl⟩⟩⟩,
    last, rfl, rfl, ?_⟩
  rw [← eraseDups_of_nodup distinct]
  simp [batches]
  rfl

theorem Certificate.length_constants (n d count : ℕ) :
    ((batches n d count ["V_safe", "V_live0"]).flatMap Batch.names ++
      CertificateVariables.constants).length = 2 * count * (n + d).choose n + 5 := by
  simp [batches, Batch.length_names, CertificateVariables.constants]
  ring

/-! ## All unknowns of a run -/

def allBatches (n d d' count k m : ℕ) : List Batch :=
  batches n d' k m ++ Certificate.batches n d count ["V_safe", "V_live0", "I"]

theorem nodup_allBatches (n d d' count k m : ℕ) :
    ((allBatches n d d' count k m).flatMap Batch.names ++ CertificateVariables.constants).Nodup := by
  refine Batch.nodup_append_parameters ?_ ?_
  · rw [allBatches, map_append]
    refine nodup_append'.mpr ⟨nodup_bases n d' k m, by simp [Certificate.batches], ?_⟩
    -- the stems of policies start with another letter
    intro s policy other
    have others : ∀ s ∈ (Certificate.batches n d count ["V_safe", "V_live0", "I"]).map Batch.base,
        s.toList.head? ≠ some 'P' := by
      simp [Certificate.batches]
    refine others s other ?_
    obtain ⟨b, mem, rfl⟩ := mem_map.mp policy
    obtain ⟨part, listed, rfl⟩ := mem_map.mp mem
    rcases mem_cons.mp listed with rfl | listed
    · simp
    · obtain ⟨i, _, rfl⟩ := mem_map.mp listed
      simp
  · intro b mem
    rcases mem_append.mp mem with policy | other
    · exact nodup_numbers b policy
    · obtain ⟨base, _, rfl⟩ := mem_map.mp other
      exact nodup_range

theorem perm_allBatches (n d d' count k m : ℕ) :
    ((allBatches n d d' count k m).flatMap Batch.names ++ CertificateVariables.constants).Perm
      ((batches n d' k m).flatMap Batch.names ++
        ((Certificate.batches n d count ["V_safe", "V_live0"]).flatMap Batch.names ++
          CertificateVariables.constants) ++ (Family.generic n d "I" count).constants) := by
  simp only [allBatches, Certificate.batches, map_cons, map_nil, flatMap_append,
    flatMap_cons, flatMap_nil, append_nil, append_assoc, Family.generic]
  exact ((perm_append_comm.append_left _).append_left _).append_left _

theorem Powers.isGeneric_template {n d : ℕ} (made : ∃ stem, e = template n d stem) : e.IsGeneric n d := by
  obtain ⟨stem, rfl⟩ := made
  exact isGeneric_equation (equation_eq_template n d stem)

/-- All unknowns of a run have names of their own, and every template is generic. -/
theorem templates_generic_and_unknowns_distinct (n d d' count k : ℕ) {m : ℕ} (active : 1 ≤ m) (given : Value)
    {members : List Value} (listed : given.members = .ok members) (ungiven : ∀ v ∈ members, v.isEmpty)
    (limits : List (String × Value)) (parameters : CertificateVariables) {a b c : Powers.Shelf}
    (soundA : a.Sound) (soundB : b.Sound) (soundC : c.Sound) :
    ∃ policy certificate invariant a' b' c',
      make (.ofNat m) (.ofNat n) (.ofNat d') k given limits a = .ok (policy, a') ∧
      make (.ofNat n) (.ofNat m) (.ofNat d) count k parameters b = .ok (certificate, b') ∧
      InvariantTemplate.make (.ofNat n) (.ofNat m) (.ofNat d) count c = .ok (invariant, c') ∧
      a'.Sound ∧ b'.Sound ∧ c'.Sound ∧
      policy.constants = unknowns policy.templates ∧
      certificate.constants = unknowns certificate.templates ++ CertificateVariables.constants ∧
      (sought invariant).constants = unknowns invariant.family.templates ∧
      (policy.constants ++ certificate.constants ++ (sought invariant).constants).Nodup ∧
      (policy.constants ++ certificate.constants ++ (sought invariant).constants).eraseDups.length =
        3 * count * (n + d).choose n + (k + 1) * m * (n + d').choose n + 5 ∧
      (policy.constants ++ certificate.constants ++ trivial.constants).eraseDups.length =
        2 * count * (n + d).choose n + (k + 1) * m * (n + d').choose n + 5 ∧
      (∀ e ∈ certificate.templates ++ invariant.family.templates, e.IsGeneric n d) ∧
      ∀ e ∈ policy.templates, e.IsGeneric n d' := by
  obtain ⟨a', policy, keptA⟩ := exists_make active n d' k listed ungiven limits soundA
  obtain ⟨certificate, b', made, keptB, safe, live, constants⟩ :=
    exists_make (.ofNat m) n d count k parameters soundB
  obtain ⟨c', invariant, keptC⟩ := InvariantTemplate.exists_make (.ofNat m) n d count soundC
  have constantsSize : certificate.constants.length = 2 * count * (n + d).choose n + 5 := by
    rw [constants, length_constants]
  have distinct : ((generic n d' k m limits).constants ++ certificate.constants ++
      (Family.generic n d "I" count).constants).Nodup := by
    rw [constants]
    exact (perm_allBatches n d d' count k m).nodup (nodup_allBatches n d d' count k m)
  refine ⟨_, certificate, _, a', b', c', policy, made, invariant, keptA, keptB, keptC,
    (unknowns_generic n d' k m limits).symm, ?_, (Family.unknowns_generic n d "I" count).symm,
    distinct, ?_, ?_, ?_, ?_⟩
  · rw [constants, Certificate.templates, safe, live, unknowns, flatMap_append, ← unknowns, ← unknowns,
      Family.unknowns_generic, Family.unknowns_generic]
    simp [Certificate.batches, Family.generic]
  · rw [Invariant.constants, eraseDups_of_nodup distinct, length_append, length_append,
      constantsSize, Family.length_constants, generic, length_batches]
    ring
  · rw [Invariant.constants, append_nil, eraseDups_of_nodup distinct.of_append_left, length_append,
      constantsSize, generic, length_batches]
    ring
  · intro e member
    rw [Certificate.templates, safe, live, mem_append, mem_append] at member
    rcases member with (member | member) | member <;>
      exact isGeneric_template (Family.exists_template member)
  · intro e member
    exact isGeneric_template (exists_template member)

def unboundedVariables : CertificateVariables := ⟨.zero, .zero, .zero, .zero, .zero, .zero, .zero, .zero, .zero, .zero⟩

theorem unknowns_of_two_states : ∃ policy certificate invariant a b c,
    make (.ofNat 1) (.ofNat 2) (.ofNat 1) 1 (.list []) [] {} = .ok (policy, a) ∧
    make (.ofNat 2) (.ofNat 1) (.ofNat 2) 2 1 unboundedVariables {} = .ok (certificate, b) ∧
    InvariantTemplate.make (.ofNat 2) (.ofNat 1) (.ofNat 2) 2 {} = .ok (invariant, c) ∧
    (policy.constants ++ certificate.constants ++ (sought invariant).constants).eraseDups.length = 47 ∧
    ∀ e ∈ policy.templates, e.IsGeneric 2 1 := by
  obtain ⟨policy, certificate, invariant, a, b, c, first, second, third, _, _, _, _, _, _, _, size, _, _,
    generic⟩ := templates_generic_and_unknowns_distinct 2 2 1 2 1 (m := 1) le_rfl (.list [])
      rfl (forall_mem_nil _) [] unboundedVariables Powers.Shelf.sound_empty Powers.Shelf.sound_empty
      Powers.Shelf.sound_empty
  exact ⟨policy, certificate, invariant, a, b, c, first, second, third, size, generic⟩

end Supermartingale
