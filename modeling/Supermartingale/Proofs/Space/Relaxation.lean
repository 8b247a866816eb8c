import Supermartingale.Proofs.Guard.Literal

/-!
# Strict comparisons and their relaxation

Reading makes strict comparisons non-strict, and so does negation. So the inequalities of a space hold wherever the
space does as it is written, and where it does not, the negation of one of them holds.
-/

namespace Supermartingale

open List Text Equation

variable {relation : Relation} {l r : Equation}

theorem Text.replaceFrom_other {p c : Char} (other : p ≠ c) (ps value cs : List Char) :
    replaceFrom (p :: ps) value 0 (c :: cs) = c :: replaceFrom (p :: ps) value 0 cs :=
  replaceFrom_cons value fun start => other (cons_prefix_cons.mp start).1

namespace Space

/-! ## Signs -/

/-- The operands of a text without blanks and the comparisons between them as they are written. -/
def cutWritten : List Char → List Char → List Char × List (Relation × List Char)
  | piece, [] => (piece.reverse, [])
  | piece, '<' :: '=' :: cs =>
    let (operand, rest) := cutWritten [] cs
    (piece.reverse, (.le, operand) :: rest)
  | piece, '>' :: '=' :: cs =>
    let (operand, rest) := cutWritten [] cs
    (piece.reverse, (.ge, operand) :: rest)
  | piece, '<' :: cs =>
    let (operand, rest) := cutWritten [] cs
    (piece.reverse, (.lt, operand) :: rest)
  | piece, '>' :: cs =>
    let (operand, rest) := cutWritten [] cs
    (piece.reverse, (.gt, operand) :: rest)
  | piece, c :: cs => cutWritten (c :: piece) cs

/-- A text without blanks whose comparison signs are all made non-strict. -/
def relaxChars : List Char → List Char
  | [] => []
  | '<' :: '=' :: cs => '<' :: '=' :: relaxChars cs
  | '>' :: '=' :: cs => '>' :: '=' :: relaxChars cs
  | '<' :: cs => '<' :: '=' :: relaxChars cs
  | '>' :: cs => '>' :: '=' :: relaxChars cs
  | c :: cs => c :: relaxChars cs

theorem cutSigns_relaxChars (piece cs : List Char) : cutSigns piece (relaxChars cs) =
    ((cutWritten piece cs).1, (cutWritten piece cs).2.map fun c => (c.1.relax, c.2)) := by
  fun_induction cutWritten piece cs with
  | case1 piece => rfl
  | case2 piece cs operand rest cut ih | case3 piece cs operand rest cut ih =>
    simp [relaxChars, cutSigns, ih, cut, Relation.relax]
  | case4 piece cs alone operand rest cut ih | case5 piece cs alone operand rest cut ih =>
    rw [relaxChars]
    · simp [cutSigns, ih, cut, Relation.relax]
    · exact alone
  | case6 piece c cs _ _ less greater ih =>
    have kept : relaxChars (c :: cs) = c :: relaxChars cs := by
      rw [relaxChars]
      all_goals simp_all
    rw [kept, cutSigns, ih]
    · exact fun _ same => absurd same (by simpa using less)
    · exact fun _ same => absurd same (by simpa using greater)

theorem relation_of_mem_cutWritten {piece cs : List Char} {x : Relation × List Char}
    (mem : x ∈ (cutWritten piece cs).2) : x.1.relax = .le ∨ x.1.relax = .ge := by
  have relaxed : (x.1.relax, x.2) ∈ (cutSigns piece (relaxChars cs)).2 := by
    rw [cutSigns_relaxChars]
    exact mem_map_of_mem mem
  exact relation_of_mem_cutSigns relaxed

-- the signs are first made strict, so that an equality sign can be put behind each of them

def strictChars (cs : List Char) : List Char :=
  replaceFrom ['<', '='] ['<'] 0 (replaceFrom ['>', '='] ['>'] 0 cs)

def equalChars (cs : List Char) : List Char :=
  replaceFrom ['<'] ['<', '='] 0 (replaceFrom ['>'] ['>', '='] 0 cs)

theorem equalChars_less (cs : List Char) : equalChars ('<' :: cs) = '<' :: '=' :: equalChars cs := by
  rw [equalChars, replaceFrom_other (by decide)]
  exact replaceFrom_append _ (cons_ne_nil '<' []) _

theorem equalChars_greater (cs : List Char) : equalChars ('>' :: cs) = '>' :: '=' :: equalChars cs := by
  have found := replaceFrom_append ['>', '='] (cons_ne_nil '>' []) cs
  rw [singleton_append] at found
  rw [equalChars, found, cons_append, replaceFrom_other (by decide), cons_append,
    replaceFrom_other (by decide)]
  rfl

theorem equalChars_other {c : Char} (less : '<' ≠ c) (greater : '>' ≠ c) (cs : List Char) :
    equalChars (c :: cs) = c :: equalChars cs := by
  rw [equalChars, replaceFrom_other greater, replaceFrom_other less, equalChars]

theorem strictChars_less (cs : List Char) : strictChars ('<' :: '=' :: cs) = '<' :: strictChars cs := by
  have kept : replaceFrom ['>', '='] ['>'] 0 ('<' :: '=' :: cs) =
      ['<', '='] ++ replaceFrom ['>', '='] ['>'] 0 cs := by
    rw [replaceFrom_other (by decide), replaceFrom_other (by decide)]
    rfl
  rw [strictChars, kept, replaceFrom_append _ (cons_ne_nil '<' ['='])]
  rfl

theorem strictChars_greater (cs : List Char) : strictChars ('>' :: '=' :: cs) = '>' :: strictChars cs := by
  have found := replaceFrom_append ['>'] (cons_ne_nil '>' ['=']) cs
  rw [strictChars, show '>' :: '=' :: cs = ['>', '='] ++ cs from rfl, found, singleton_append,
    replaceFrom_other (by decide), strictChars]

theorem strictChars_other {c : Char} (less : '<' ≠ c) (greater : '>' ≠ c) (cs : List Char) :
    strictChars (c :: cs) = c :: strictChars cs := by
  rw [strictChars, replaceFrom_other greater, replaceFrom_other less, strictChars]

theorem strictChars_alone (c : Char) {cs : List Char} (alone : ∀ rest, cs ≠ '=' :: rest) :
    strictChars (c :: cs) = c :: strictChars cs := by
  have absent (p : Char) {ds : List Char} (apart : ∀ rest, ds ≠ '=' :: rest) : ¬ [p, '='] <+: c :: ds := by
    rintro ⟨rest, same⟩
    exact apart rest (List.cons.inj same).2.symm
  rw [strictChars, replaceFrom_cons _ (absent '>' alone), replaceFrom_cons _ (absent '<' ?_), strictChars]
  -- equality signs are taken away, but none gets to the front
  intro rest front
  cases cs with
  | nil => cases front
  | cons d cs =>
    by_cases start : ['>', '='] <+: d :: cs
    · obtain ⟨behind, same⟩ := start
      rw [← same, replaceFrom_append _ (cons_ne_nil '>' ['='])] at front
      cases front
    · rw [replaceFrom_cons _ start] at front
      cases front
      exact alone cs rfl

theorem equalChars_strictChars (cs : List Char) : equalChars (strictChars cs) = relaxChars cs := by
  fun_induction relaxChars cs with
  | case1 => rfl
  | case2 cs ih => rw [strictChars_less, equalChars_less, ih]
  | case3 cs ih => rw [strictChars_greater, equalChars_greater, ih]
  | case4 cs alone ih => rw [strictChars_alone '<' alone, equalChars_less, ih]
  | case5 cs alone ih => rw [strictChars_alone '>' alone, equalChars_greater, ih]
  | case6 c cs _ _ less greater ih =>
    rw [strictChars_other (Ne.symm less) (Ne.symm greater), equalChars_other (Ne.symm less) (Ne.symm greater), ih]

theorem toList_relaxSigns (s : String) : (relaxSigns s).toList = relaxChars (s.toList.filter (· != ' ')) := by
  rw [← equalChars_strictChars, ← replaceFrom_blank]
  unfold relaxSigns
  simp only [replaceAll_of_nonempty (k := " ") (by decide), replaceAll_of_nonempty (k := ">=") (by decide),
    replaceAll_of_nonempty (k := "<=") (by decide), replaceAll_of_nonempty (k := ">") (by decide),
    replaceAll_of_nonempty (k := "<") (by decide), String.toList_ofList]
  rfl

/-! ## Comparisons as they are written -/

structure Comparison where
  left : List Char
  relation : Relation
  right : List Char

def chain : List Char → List (Relation × List Char) → List Comparison
  | _, [] => []
  | a, (r, b) :: rest => ⟨a, r, b⟩ :: chain b rest

def chunkComparisons (s : String) : List Comparison :=
  let cut := cutWritten [] (s.toList.filter (· != ' '))
  chain cut.1 cut.2

def written (s : String) : List Comparison :=
  (splitOn "and" (replaceAll "&" "and" (replaceAll "AND" "and" s))).flatMap chunkComparisons

/-- What a comparison becomes when it is read. -/
def Becomes (c : Comparison) (i : Inequality) : Prop :=
  (c.relation.relax = .le ∨ c.relation.relax = .ge) ∧ compareTexts c.left c.relation.relax c.right = .ok i

theorem readChunk_forall₂ {s : String} {is : List Inequality} (result : readChunk s = .ok is) :
    Forall₂ Becomes (chunkComparisons s) is := by
  have known := @relation_of_mem_cutWritten [] (s.toList.filter (· != ' '))
  unfold readChunk at result
  unfold chunkComparisons
  simp only [toList_relaxSigns, cutSigns_relaxChars] at result
  generalize cutWritten [] (s.toList.filter (· != ' ')) = cut at result known ⊢
  obtain ⟨a, rest⟩ := cut
  -- one or two comparisons are read, and any other number of them is refused
  match rest with
  | [] => cases result
  | [(r, b)] =>
    obtain ⟨i, compared, same⟩ := bind_eq_ok.mp result
    cases same
    exact .cons ⟨known (x := (r, b)) (by simp), compared⟩ .nil
  | [(r, b), (q, c)] =>
    obtain ⟨i, first, more⟩ := bind_eq_ok.mp result
    obtain ⟨j, second, same⟩ := bind_eq_ok.mp more
    cases same
    exact .cons ⟨known (x := (r, b)) (by simp), first⟩ (.cons ⟨known (x := (q, c)) (by simp), second⟩ .nil)
  | _ :: _ :: _ :: _ => cases result

theorem read_forall₂ {s : String} {is : List Inequality} (result : read s = .ok is) :
    Forall₂ Becomes (written s) is := by
  unfold read at result
  split at result
  · cases result
  · obtain ⟨chunks, parts, same⟩ := bind_eq_ok.mp result
    cases same
    rw [mapM_eq_ok] at parts
    clear result
    unfold written
    generalize splitOn "and" (replaceAll "&" "and" (replaceAll "AND" "and" s)) = pieces at parts ⊢
    induction parts with
    | nil => exact .nil
    | cons first _ ih => exact rel_append (readChunk_forall₂ first) ih

end Space

/-! ## Normal forms -/

namespace Inequality

/-- A comparison in normal form has nothing on its right. -/
structure IsNormal (i : Inequality) : Prop where
  relation : i.relation = .ge
  numeric : i.left.IsNumeric
  right : i.right.IsNumeric ∧ i.right.isZero

theorem isNormal_make (known : relation = .le ∨ relation = .ge)
    (left : l.IsNumeric) (right : r.IsNumeric) : (make l relation r).IsNormal :=
  make_induction known left right (fun left right zero => ⟨rfl, left, right, zero⟩)
    fun left right => ⟨rfl, (sub_spec (fun _ => 0) left right).1, forall_mem_nil _, rfl⟩

variable {i : Inequality} (normal : i.IsNormal) (ρ : String → ℝ)
include normal

theorem IsNormal.holds_iff : i.Holds ρ ↔ 0 ≤ i.left.eval ρ := by
  rw [Holds, normal.relation, eval_of_isZero normal.right.1 normal.right.2]
  exact Iff.rfl

theorem IsNormal.holds_negate_iff : i.negate.Holds ρ ↔ i.left.eval ρ ≤ 0 := by
  unfold negate
  rw [holds_make _ ρ normal.numeric normal.right.1, normal.relation,
    eval_of_isZero normal.right.1 normal.right.2]
  exact Iff.rfl

end Inequality

/-! ## Truth -/

theorem Inequality.holds_negate_make (known : relation = .le ∨ relation = .ge)
    (ρ : String → ℝ) (left : l.IsNumeric) (right : r.IsNumeric) :
    (make l relation r).negate.Holds ρ ↔ relation.swap.Compares (l.eval ρ) (r.eval ρ) := by
  have moved {l r : Equation} (left : l.IsNumeric) (right : r.IsNumeric) :
      (if r.isZero then (⟨l, .ge, r⟩ : Inequality) else ⟨l.sub r, .ge, .zero⟩).negate.Holds ρ ↔
        l.eval ρ ≤ r.eval ρ := by
    obtain ⟨numeric, value⟩ := sub_spec ρ left right
    split
    · exact holds_make .le ρ left right
    · refine (holds_make .le ρ numeric (forall_mem_nil _)).trans ?_
      rw [value]
      exact sub_nonpos
  rcases known with rfl | rfl
  · exact moved right left
  · exact moved left right

namespace Equation

variable {names : List String} {e f : Equation}

theorem isNumeric_of_isOver (spanned : e.isOver names) : e.IsNumeric :=
  fun m mem => (isOver_iff.mp spanned m mem).1

theorem isOver_sub (left : e.isOver names) (right : f.isOver names) : (e.sub f).isOver names := by
  rw [isOver_iff] at left right ⊢
  refine forall_mem_sub (fun m spanned => ⟨Monomial.isNumeral_negate spanned.1, fun v mem => ?_⟩) left right
  exact spanned.2 v (Monomial.mem_canonical mem).1

end Equation

theorem Inequality.isOver_make {names : List String} (known : relation = .le ∨ relation = .ge)
    (left : l.isOver names) (right : r.isOver names) :
    (make l relation r).left.isOver names ∧ (make l relation r).right.isOver names :=
  make_induction (Q := fun i => i.left.isOver names ∧ i.right.isOver names) known left right
    (fun left right _ => ⟨left, right⟩) fun left right => ⟨isOver_sub left right, rfl⟩

theorem Relation.compares_relax {x y : ℝ} (compares : relation.Compares x y) : relation.relax.Compares x y := by
  cases relation with
  | gt | lt => exact le_of_lt compares
  | eq | ne | ge | le => exact compares

theorem Relation.compares_swap (known : relation.relax = .le ∨ relation.relax = .ge) {x y : ℝ}
    (fails : ¬ relation.Compares x y) : relation.relax.swap.Compares x y := by
  cases relation with
  | eq | ne => simp [relax] at known
  | gt | lt => exact not_lt.mp fails
  | ge | le => exact (not_le.mp fails).le

namespace Space

/-- Both operands of a comparison are polynomials over some names. -/
def Comparison.isOver (names : List String) (c : Comparison) : Bool :=
  [c.left, c.right].all fun cs =>
    match ofText (String.ofList cs) with
    | .ok e => e.isOver names
    | .error _ => false

/-- The truth of a comparison as it is written, where names have values. -/
def Comparison.Holds (ρ : String → ℝ) (c : Comparison) : Prop :=
  ∃ l r, ofText (String.ofList c.left) = .ok l ∧ ofText (String.ofList c.right) = .ok r ∧
    c.relation.Compares (l.eval ρ) (r.eval ρ)

/-- The truth of a space as it is written, where names have values. -/
def Holds (ρ : String → ℝ) (space : String) : Prop := ∀ c ∈ written space, c.Holds ρ

theorem Becomes.spec {names : List String} {c : Comparison} {i : Inequality} (becomes : Becomes c i)
    (spanned : c.isOver names) : (i.left.isOver names ∧ i.right.isOver names) ∧ i.IsNormal ∧
      ∀ ρ, (c.Holds ρ → i.Holds ρ) ∧ (¬ c.Holds ρ → i.negate.Holds ρ) := by
  obtain ⟨known, compared⟩ := becomes
  obtain ⟨l, readLeft, rest⟩ := bind_eq_ok.mp compared
  obtain ⟨r, readRight, same⟩ := bind_eq_ok.mp rest
  cases same
  simp only [Comparison.isOver, all_cons, all_nil, readLeft, readRight, Bool.and_true, Bool.and_eq_true]
    at spanned
  obtain ⟨left, right⟩ := spanned
  have numeric := isNumeric_of_isOver left
  have numeric' := isNumeric_of_isOver right
  refine ⟨Inequality.isOver_make known left right, Inequality.isNormal_make known numeric numeric', fun ρ => ?_⟩
  have idempotent : c.relation.relax.relax = c.relation.relax := by cases c.relation <;> rfl
  rw [Inequality.holds_make _ ρ numeric numeric', idempotent, Inequality.holds_negate_make known ρ numeric numeric']
  constructor
  · rintro ⟨l', r', first, second, compares⟩
    cases readLeft.symm.trans first
    cases readRight.symm.trans second
    exact Relation.compares_relax compares
  · intro fails
    exact Relation.compares_swap known fun compares => fails ⟨l, r, readLeft, readRight, compares⟩

/-- A space that can be read and compares polynomials over some names. -/
def Spans (names : List String) (space : String) : Prop := (read space).isOk ∧ ∀ c ∈ written space, c.isOver names

/-- The inequalities of a space hold where it does, and the negation of one of them where it does not. -/
theorem Spans.exists_comprises {names : List String} (unknown : ∀ name ∈ names, IsUnknown name) {space : String}
    (spans : Spans names space) : ∃ is, Comprises space is ∧
      (∀ i ∈ is, i.left.isOver names ∧ i.right.isOver names) ∧ (∀ i ∈ is, i.IsNormal) ∧
      ∀ ρ, (Holds ρ space → ∀ i ∈ is, i.Holds ρ) ∧ (¬ Holds ρ space → ∃ i ∈ is, i.negate.Holds ρ) := by
  obtain ⟨is, result⟩ := exists_of_isOk spans.1
  have related := read_forall₂ result
  have known : ∀ i ∈ is, (i.left.isOver names ∧ i.right.isOver names) ∧ i.IsNormal ∧
      ∀ ρ, Holds ρ space → i.Holds ρ := by
    intro i mem
    obtain ⟨c, inside, becomes⟩ := exists_of_mem_right related mem
    obtain ⟨spanned, normal, truth⟩ := becomes.spec (spans.2 c inside)
    exact ⟨spanned, normal, fun ρ holds => (truth ρ).1 (holds c inside)⟩
  refine ⟨is, ⟨result, fun i mem => ?_⟩, fun i mem => (known i mem).1, fun i mem => (known i mem).2.1,
    fun ρ => ⟨fun holds i mem => (known i mem).2.2 ρ holds, fun fails => ?_⟩⟩
  · obtain ⟨left, right⟩ := (known i mem).1
    exact ⟨isWritten_of_isOver unknown left, isWritten_of_isOver unknown right⟩
  · unfold Holds at fails
    push Not at fails
    obtain ⟨c, inside, false⟩ := fails
    obtain ⟨i, mem, becomes⟩ := exists_of_mem_left related inside
    exact ⟨i, mem, ((becomes.spec (spans.2 c inside)).2.2 ρ).2 false⟩

end Space

end Supermartingale
