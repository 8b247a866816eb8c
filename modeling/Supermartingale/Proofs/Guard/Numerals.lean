import Mathlib.Data.List.TakeWhile
import Supermartingale.Hoa
import Supermartingale.Proofs.Guard.Infix

/-!
# Labels over numbered propositions

The operators of a label are told apart by precedence only when it is turned into prefix form. This has the operands
and the truth values of the label exactly if all numerals have one digit.
-/

namespace Supermartingale

open Label (Tree Spells HasForm)

theorem Text.isAlphanumeric_of_isDigit {c : Char} (digit : c.isDigit) : isAlphanumeric c := by
  obtain ⟨_, upper⟩ : 48 ≤ c.toNat ∧ c.toNat ≤ 57 := Char.isDigit_iff_toNat.mp digit
  have ascii : c.toNat < 128 := by omega
  simp [isAlphanumeric, isNumeral, ascii, digit]

namespace Label.Spells

variable {r : Rank} {d e : Tree} {s t : List Char}

theorem exists_not (spells : Spells r e s) : ∃ f : Tree, Spells r f ('!' :: s) ∧ f.operands = e.operands := by
  induction spells with
  | operand nonempty word => exact ⟨_, .not (.operand nonempty word), rfl⟩
  | not inner _ => exact ⟨_, .not (.not inner), rfl⟩
  | group inner _ => exact ⟨_, .not (.group inner), rfl⟩
  | factor _ ih =>
    obtain ⟨f, spells, same⟩ := ih
    exact ⟨f, .factor spells, same⟩
  | conjunction _ ih =>
    obtain ⟨f, spells, same⟩ := ih
    exact ⟨f, .conjunction spells, same⟩
  | join k _ right ihd _ =>
    obtain ⟨f, spells, same⟩ := ihd
    exact ⟨_, .join k spells right, by simp [Tree.operands, same]⟩

/-- A conjunction sign between two texts joins the last conjunction of the first to the first of the second. -/
theorem exists_and (left : Spells .disjunction d s) (right : Spells .disjunction e t) :
    ∃ f : Tree, Spells .disjunction f (s ++ '&' :: t) ∧ f.operands = d.operands ++ e.operands := by
  have behind {d : Tree} {s : List Char} (left : Spells .conjunction d s) :
      ∃ f : Tree, Spells .disjunction f (s ++ '&' :: t) ∧ f.operands = d.operands ++ e.operands := by
    generalize rank : Rank.disjunction = r at right
    induction right with
    | operand _ _ | not _ _ | group _ _ | factor _ _ => cases rank
    | conjunction right _ => exact ⟨_, .conjunction (.join .conjunction left right), rfl⟩
    | @join k e₁ e₂ t₁ t₂ _ right ih _ =>
      cases k with
      | conjunction => cases rank
      | disjunction =>
        obtain ⟨f, spells, same⟩ := ih rank
        refine ⟨.join .disjunction f e₂, ?_, by simp [Tree.operands, same]⟩
        have joined := Spells.join .disjunction spells right
        rwa [List.append_assoc, List.cons_append] at joined
  generalize rank : Rank.disjunction = r at left
  induction left with
  | operand _ _ | not _ _ | group _ _ | factor _ _ => cases rank
  | conjunction left _ => exact behind left
  | @join k d₁ d₂ s₁ s₂ left _ _ ih =>
    cases k with
    | conjunction => cases rank
    | disjunction =>
      obtain ⟨f, spells, same⟩ := ih rank
      refine ⟨.join .disjunction d₁ f, ?_, by simp [Tree.operands, same]⟩
      rw [List.append_assoc, List.cons_append]
      exact .join .disjunction left spells

end Label.Spells

namespace Hoa.Label

def operands : Label → List (List Char)
  | truth b => [if b then ['t'] else ['f']]
  | index ds => [ds]
  | not e => e.operands
  | paren e => e.operands
  | binary l _ r => l.operands ++ r.operands

/-- The expression that a label stands for by the precedence of its operators. -/
def Means (l : Label) (e : Tree) : Prop := Spells .disjunction e (l.render.toList.filter (· != ' '))

/-- The prefix form of a label has the operands and the truth values of an expression. -/
def Keeps (l : Label) (e : Tree) : Prop :=
  ∃ p : Tree, HasForm l.render p ∧ p.operands.Perm e.operands ∧ ∀ truth, p.eval truth = e.eval truth

def IsNumbered : Label → Prop
  | truth _ => True
  | index ds => ds ≠ [] ∧ ∀ c ∈ ds, c.isDigit
  | not e => e.IsNumbered
  | paren e => e.IsNumbered
  | binary l _ r => l.IsNumbered ∧ r.IsNumbered

theorem isNumbered_index {cs ds rest : List Char} (numeral : numeral? cs = some (ds, rest)) :
    (index ds).IsNumbered := by
  unfold numeral? at numeral
  dsimp only at numeral
  split at numeral
  · cases numeral
  · rename_i digits nonempty
    cases numeral
    refine ⟨fun empty => nonempty empty, fun c mem => ?_⟩
    exact List.mem_takeWhile_imp mem

mutual

theorem isNumbered_of_read (fuel : ℕ) (cs rest : List Char) (l : Label)
    (result : read fuel cs = .ok (l, rest)) : l.IsNumbered := by
  cases fuel with
  | zero => cases result
  | succ fuel =>
    rw [read] at result
    split at result
    · obtain ⟨⟨e, behind⟩, inner, result⟩ := bind_eq_ok.mp result
      cases result
      exact isNumbered_of_read fuel _ _ e inner
    · obtain ⟨⟨e, behind⟩, first, result⟩ := bind_eq_ok.mp result
      have left := isNumbered_of_atom fuel _ _ e first
      dsimp only at result
      split at result
      · obtain ⟨⟨f, after⟩, second, result⟩ := bind_eq_ok.mp result
        cases result
        exact ⟨left, isNumbered_of_read fuel _ _ f second⟩
      · cases result
        exact left

theorem isNumbered_of_atom (fuel : ℕ) (cs rest : List Char) (l : Label)
    (result : atom fuel cs = .ok (l, rest)) : l.IsNumbered := by
  cases fuel with
  | zero => cases result
  | succ fuel =>
    rw [atom] at result
    split at result
    · obtain ⟨⟨e, behind⟩, inner, result⟩ := bind_eq_ok.mp result
      obtain ⟨after, _, result⟩ := bind_eq_ok.mp result
      cases result
      exact isNumbered_of_read fuel _ _ e inner
    · split at result
      · rename_i numeral
        cases result
        exact isNumbered_index numeral
      · split at result
        · cases result
          trivial
        · cases result

end

theorem exists_means {l : Label} (numbered : l.IsNumbered) : ∃ e : Tree, l.Means e ∧ e.operands = l.operands := by
  unfold Means
  induction l with
  | truth b =>
    refine ⟨.operand (if b then ['t'] else ['f']), ?_, rfl⟩
    cases b with
    | false | true => exact .conjunction (.factor (.operand (by decide) (by decide)))
  | index ds =>
    obtain ⟨nonempty, digits⟩ := numbered
    have word : ∀ c ∈ ds, Text.isAlphanumeric c := fun c mem => Text.isAlphanumeric_of_isDigit (digits c mem)
    have visible : ds.filter (· != ' ') = ds := by
      refine List.filter_eq_self.mpr fun c mem => ?_
      have plain := Label.plain_of_isAlphanumeric (word c mem)
      simp only [List.mem_cons, not_or] at plain
      simp [plain.2.2.1]
    refine ⟨.operand ds, ?_, rfl⟩
    rw [render, String.toList_ofList, visible]
    exact .conjunction (.factor (.operand nonempty word))
  | not l ih =>
    obtain ⟨e, spells, same⟩ := ih numbered
    obtain ⟨f, negated, kept⟩ := spells.exists_not
    exact ⟨f, by simpa [render] using negated, kept.trans same⟩
  | paren l ih =>
    obtain ⟨e, spells, same⟩ := ih numbered
    have group := Spells.conjunction (.factor (.group spells))
    exact ⟨e, by simpa [render] using group, same⟩
  | binary l op r ihl ihr =>
    obtain ⟨d, left, same⟩ := ihl numbered.1
    obtain ⟨e, right, same'⟩ := ihr numbered.2
    cases op with
    | and =>
      obtain ⟨f, spells, joined⟩ := left.exists_and right
      exact ⟨f, by simpa [render, LabelOp.sign] using spells, by rw [joined, same, same']; rfl⟩
    | or =>
      have spells : Spells .disjunction _ _ := .join .disjunction left right
      refine ⟨.join .disjunction d e, ?_, by simp [Tree.operands, operands, same, same']⟩
      simpa [render, LabelOp.sign, Connective.mark] using spells

/-- A label that is read keeps its operands and its truth values in prefix form exactly if every operand has one
character, that is, if every numeral has one digit. -/
theorem keeps_iff_short {fuel : ℕ} {cs rest : List Char} {l : Label} (result : read fuel cs = .ok (l, rest)) :
    (∃ e : Tree, l.Means e ∧ e.operands = l.operands) ∧ ∀ e : Tree, l.Means e → (l.Keeps e ↔ e.IsShort) := by
  refine ⟨exists_means (isNumbered_of_read fuel cs rest l result), fun e means => ⟨?_, fun short => ?_⟩⟩
  · rintro ⟨p, form, operands, _⟩
    exact means.isShort_of_hasForm form operands
  · exact means.exists_hasForm short

def ahead : Label := .not (.binary (.index ['0']) .and (.binary (.truth true) .or (.index ['7'])))

def aheadTree : Tree :=
  .join .disjunction (.join .conjunction (.not (.operand ['0'])) (.operand ['t'])) (.operand ['7'])

theorem keeps_ahead : ahead.Means aheadTree ∧ ahead.Keeps aheadTree := by
  have result : read 8 " !0& true|7 ]".toList = .ok (ahead, " ]".toList) := by decide +kernel
  have first : Spells .conjunction (.join .conjunction (.not (.operand ['0'])) (.operand ['t'])) "!0&t".toList :=
    .join .conjunction (.factor (.not (.operand (by decide) (by decide)))) (.factor (.operand (by decide) (by decide)))
  have means : ahead.Means aheadTree :=
    .join .disjunction (.conjunction first) (.conjunction (.factor (.operand (by decide) (by decide))))
  exact ⟨means, ((keeps_iff_short result).2 aheadTree means).mpr (by unfold Label.Tree.IsShort; decide)⟩

def tenth : Label := .binary (.index ['1', '0']) .and (.index ['1', '1'])

def tenthTree : Tree := .join .conjunction (.operand ['1', '0']) (.operand ['1', '1'])

/-- Of this label with two long numerals a single digit is left. -/
theorem not_keeps_tenth : read 4 "10 & 11]".toList = .ok (tenth, "]".toList) ∧ tenth.Means tenthTree ∧
    Label.prefixForm tenth.render = .ok "1" ∧ ¬ tenth.Keeps tenthTree := by
  have means : tenth.Means tenthTree :=
    .conjunction (.join .conjunction (.factor (.operand (by decide) (by decide)))
      (.factor (.operand (by decide) (by decide))))
  refine ⟨by decide +kernel, means, by decide +kernel, ?_⟩
  rintro ⟨p, form, operands, _⟩
  have short := means.isShort_of_hasForm form operands
  exact absurd (short ['1', '0'] (by decide)) (by decide)

end Hoa.Label

end Supermartingale
