import Supermartingale.Proofs.Guard.Label

/-!
# Boolean expressions in infix and in prefix form

If every operand is one character, the prefix form of an expression is the text of one with the same operands and
truth values: chains of one operator are grouped from their end, and operands are exchanged. A longer operand falls
apart into its characters.
-/

namespace Supermartingale

open List Text

namespace Connective

def mark : Connective → Char
  | conjunction => '&'
  | disjunction => '|'

def eval : Connective → Bool → Bool → Bool
  | conjunction, a, b => a && b
  | disjunction, a, b => a || b

theorem eval_comm (k : Connective) (a b : Bool) : k.eval a b = k.eval b a := by
  cases k <;> simp [eval, Bool.and_comm, Bool.or_comm]

theorem eval_assoc (k : Connective) (a b c : Bool) : k.eval (k.eval a b) c = k.eval a (k.eval b c) := by
  cases k <;> simp [eval, Bool.and_assoc, Bool.or_assoc]

end Connective

namespace Label

/-! ## Expressions -/

/-- A boolean expression whose operands are words. -/
inductive Tree where
  | operand (w : List Char)
  | not (e : Tree)
  | join (k : Connective) (d e : Tree)

namespace Tree

def operands : Tree → List (List Char)
  | operand w => [w]
  | not e => e.operands
  | join _ d e => d.operands ++ e.operands

def eval (truth : List Char → Bool) : Tree → Bool
  | operand w => truth w
  | not e => !e.eval truth
  | join k d e => k.eval (d.eval truth) (e.eval truth)

/-- The text with every operator before its operands and parentheses around every application. -/
def form : Tree → List Char
  | operand w => w
  | not e => '(' :: '!' :: ' ' :: (e.form ++ [')'])
  | join k d e => '(' :: k.mark :: ' ' :: (d.form ++ ' ' :: (e.form ++ [')']))

/-- All operands are alphanumeric words. -/
def IsPlain (e : Tree) : Prop := ∀ w ∈ e.operands, w ≠ [] ∧ ∀ c ∈ w, isAlphanumeric c

/-- All operands have one character. -/
def IsShort (e : Tree) : Prop := ∀ w ∈ e.operands, w.length = 1

/-- The same operands, each of them as often, and the same truth values. -/
def Same (d e : Tree) : Prop := d.operands.Perm e.operands ∧ ∀ truth, d.eval truth = e.eval truth

namespace Same

variable {d d' e e' f : Tree}

theorem refl (e : Tree) : Same e e := ⟨.refl _, fun _ => rfl⟩

theorem symm (same : Same d e) : Same e d := ⟨same.1.symm, fun truth => (same.2 truth).symm⟩

theorem trans (first : Same d e) (second : Same e f) : Same d f :=
  ⟨first.1.trans second.1, fun truth => (first.2 truth).trans (second.2 truth)⟩

theorem not (same : Same d e) : Same (.not d) (.not e) := ⟨same.1, fun truth => by simp [eval, same.2 truth]⟩

theorem join (k : Connective) (first : Same d d') (second : Same e e') : Same (.join k d e) (.join k d' e') :=
  ⟨first.1.append second.1, fun truth => by simp [eval, first.2 truth, second.2 truth]⟩

theorem comm (k : Connective) (d e : Tree) : Same (.join k d e) (.join k e d) :=
  ⟨perm_append_comm, fun _ => k.eval_comm _ _⟩

theorem assoc (k : Connective) (d e f : Tree) : Same (.join k (.join k d e) f) (.join k d (.join k e f)) :=
  ⟨by simp [operands], fun _ => k.eval_assoc _ _ _⟩

theorem isShort (same : Same d e) (short : d.IsShort) : e.IsShort := fun w mem => short w (same.1.mem_iff.mpr mem)

theorem isPlain (same : Same d e) (plain : d.IsPlain) : e.IsPlain := fun w mem => plain w (same.1.mem_iff.mpr mem)

end Same

theorem IsShort.join {k : Connective} {d e : Tree} (short : (Tree.join k d e).IsShort) : d.IsShort ∧ e.IsShort :=
  forall_mem_append.mp short

/-! Different expressions have different prefix texts. -/

def Ends (cs : List Char) : Prop := ∀ c ∈ cs.head?, ¬ isAlphanumeric c

theorem ends_blank (cs : List Char) : Ends (' ' :: cs) := by
  intro c first
  cases first
  decide

theorem ends_close (cs : List Char) : Ends (')' :: cs) := by
  intro c first
  cases first
  decide

theorem word_append_inj {w v s t : List Char} (word : ∀ c ∈ w, isAlphanumeric c)
    (word' : ∀ c ∈ v, isAlphanumeric c) (ends : Ends s) (ends' : Ends t) (same : w ++ s = v ++ t) :
    w = v ∧ s = t := by
  induction w generalizing v with
  | nil =>
    cases v with
    | nil => exact ⟨rfl, same⟩
    | cons c v => exact absurd (word' c mem_cons_self) (ends c (by simp_all))
  | cons c w ih =>
    cases v with
    | nil => exact absurd (word c mem_cons_self) (ends' c (by simp [← show _ = t from same]))
    | cons c' v =>
      obtain ⟨rfl, rest⟩ := List.cons.inj same
      obtain ⟨rfl, behind⟩ := ih (fun d mem => word d (mem_cons_of_mem _ mem))
        (fun d mem => word' d (mem_cons_of_mem _ mem)) rest
      exact ⟨rfl, behind⟩

theorem word_ne_open {w s t : List Char} (word : w ≠ [] ∧ ∀ c ∈ w, isAlphanumeric c) : w ++ s ≠ '(' :: t := by
  intro same
  obtain ⟨c, w, rfl⟩ := exists_cons_of_ne_nil word.1
  have operand := word.2 c mem_cons_self
  rw [(List.cons.inj same).1] at operand
  exact absurd operand (by decide)

theorem form_append_inj {d e : Tree} (plain : d.IsPlain) (plain' : e.IsPlain) {s t : List Char} (ends : Ends s)
    (ends' : Ends t) (same : d.form ++ s = e.form ++ t) : d = e ∧ s = t := by
  induction d generalizing e s t with
  | operand w =>
    have word := plain w (mem_singleton_self w)
    cases e with
    | operand v =>
      have word' := plain' v (mem_singleton_self v)
      obtain ⟨rfl, behind⟩ := word_append_inj word.2 word'.2 ends ends' same
      exact ⟨rfl, behind⟩
    | not e => exact absurd same (word_ne_open word)
    | join k d e => exact absurd same (word_ne_open word)
  | not d ih =>
    cases e with
    | operand v => exact absurd same.symm (word_ne_open (plain' v (mem_singleton_self v)))
    | not e =>
      have inner : d.form ++ ')' :: s = e.form ++ ')' :: t := by simpa [form] using same
      obtain ⟨rfl, behind⟩ := ih (e := e) plain plain' (ends_close s) (ends_close t) inner
      exact ⟨rfl, (List.cons.inj behind).2⟩
    | join k d' e => cases k <;> simp [form, Connective.mark] at same
  | join k d d' ihd ihd' =>
    cases e with
    | operand v => exact absurd same.symm (word_ne_open (plain' v (mem_singleton_self v)))
    | not e => cases k <;> simp [form, Connective.mark] at same
    | join k' e e' =>
      obtain ⟨plain₁, plain₂⟩ := forall_mem_append.mp plain
      obtain ⟨plain₁', plain₂'⟩ := forall_mem_append.mp plain'
      have parts : k.mark = k'.mark ∧
          d.form ++ ' ' :: (d'.form ++ ')' :: s) = e.form ++ ' ' :: (e'.form ++ ')' :: t) := by
        simpa [form] using same
      have connective : k = k' := by
        have mark := parts.1
        cases k <;> cases k' <;> first | rfl | simp [Connective.mark] at mark
      obtain ⟨rfl, rest⟩ := ihd plain₁ plain₁' (ends_blank _) (ends_blank _) parts.2
      obtain ⟨rfl, behind⟩ := ihd' plain₂ plain₂' (ends_close s) (ends_close t) (List.cons.inj rest).2
      exact ⟨by rw [connective], (List.cons.inj behind).2⟩

theorem form_inj {d e : Tree} (plain : d.IsPlain) (plain' : e.IsPlain) (same : d.form = e.form) : d = e := by
  have nothing : Ends [] := fun c first => by cases first
  exact (form_append_inj plain plain' nothing nothing (by rw [same])).1

end Tree

/-! ## Spellings -/

end Label

namespace Connective

def rank : Connective → Label.Rank
  | conjunction => .conjunction
  | disjunction => .disjunction

theorem mark_spec (k : Connective) :
    k.mark ∈ ['!', '&', '|'] ∧ Label.precedence k.mark = .ok k.rank.binding ∧ Label.groupsLeft k.mark ∧
      Label.turn k.mark = k.mark := by
  cases k <;> decide

end Connective

namespace Label

variable {e : Tree} {label : String} {s : List Char}

/-- The texts of an expression without blanks. A chain of one operator may stand for any grouping of it. -/
inductive Spells : Rank → Tree → List Char → Prop where
  | operand {w : List Char} (nonempty : w ≠ []) (word : ∀ c ∈ w, isAlphanumeric c) : Spells .factor (.operand w) w
  | not {e : Tree} {s : List Char} (inner : Spells .factor e s) : Spells .factor (.not e) ('!' :: s)
  | group {e : Tree} {s : List Char} (inner : Spells .disjunction e s) : Spells .factor e ('(' :: (s ++ [')']))
  | factor {e : Tree} {s : List Char} (alone : Spells .factor e s) : Spells .conjunction e s
  | conjunction {e : Tree} {s : List Char} (alone : Spells .conjunction e s) : Spells .disjunction e s
  | join (k : Connective) {d e : Tree} {s t : List Char} (left : Spells k.rank d s) (right : Spells k.rank e t) :
      Spells k.rank (.join k d e) (s ++ k.mark :: t)

theorem Spells.isPlain {r : Rank} (spells : Spells r e s) : e.IsPlain := by
  induction spells with
  | operand nonempty word => exact forall_mem_singleton.mpr ⟨nonempty, word⟩
  | not _ ih | group _ ih | factor _ ih | conjunction _ ih => exact ih
  | join k _ _ ihd ihe => exact forall_mem_append.mpr ⟨ihd, ihe⟩

/-! ## Ordering spellings -/

def reversed (s : List Char) : List Char := s.reverse.map turn

theorem reversed_append (s t : List Char) : reversed (s ++ t) = reversed t ++ reversed s := by
  simp [reversed]

theorem turn_of_isAlphanumeric {c : Char} (operand : isAlphanumeric c) : turn c = c := by
  have plain := plain_of_isAlphanumeric operand
  simp only [mem_cons, not_or] at plain
  simp [turn, plain]

def IsToken (c : Char) : Prop := isAlphanumeric c ∨ c ∈ ['!', '&', '|']

/-- A text is ordered into operands and operators that are combined to the expression if its operands are short. -/
def Arranges (n : ℕ) (cs : List Char) (e : Tree) : Prop :=
  ∃ ordered, Orders n cs ordered ∧ (∀ c ∈ ordered, IsToken c) ∧
    (e.IsShort → ∃ p : Tree, Combines ordered (String.ofList p.form) ∧ p.Same e)

namespace Arranges

variable {n m : ℕ} {cs ds : List Char} {d e : Tree}

theorem operand {w : List Char} (word : ∀ c ∈ w, isAlphanumeric c) : Arranges 3 (reversed w) (.operand w) := by
  have kept : reversed w = w.reverse := by
    refine (map_congr_left fun c mem => ?_).trans (map_id _)
    exact turn_of_isAlphanumeric (word c (mem_reverse.mp mem))
  have word' : ∀ c ∈ w.reverse, isAlphanumeric c := fun c mem => word c (mem_reverse.mp mem)
  rw [kept]
  refine ⟨w.reverse, orders_operands word', fun c mem => .inl (word' c mem), fun short => ?_⟩
  obtain ⟨c, rfl⟩ := length_eq_one_iff.mp (short w (mem_singleton_self w))
  exact ⟨.operand [c], combines_operand (word c (mem_singleton_self c)), .refl _⟩

theorem mono (arranges : Arranges n cs e) (le : m ≤ n) : Arranges m cs e := by
  obtain ⟨ordered, orders, rest⟩ := arranges
  exact ⟨ordered, orders.mono le, rest⟩

theorem congr (arranges : Arranges n cs d) (same : d.Same e) : Arranges n cs e := by
  obtain ⟨ordered, orders, tokens, combined⟩ := arranges
  refine ⟨ordered, orders, tokens, fun short => ?_⟩
  obtain ⟨p, combines, inner⟩ := combined (same.symm.isShort short)
  exact ⟨p, combines, inner.trans same⟩

theorem not (arranges : Arranges 3 cs e) : Arranges 3 (cs ++ ['!']) (.not e) := by
  obtain ⟨ordered, orders, tokens, combined⟩ := arranges
  refine ⟨ordered ++ ['!'], orders.negation, ?_, fun short => ?_⟩
  · exact forall_mem_append.mpr ⟨tokens, forall_mem_singleton.mpr (.inr (by decide))⟩
  · obtain ⟨p, combines, same⟩ := combined short
    refine ⟨.not p, ?_, same.not⟩
    have text : String.ofList (Tree.not p).form = "(! " ++ String.ofList p.form ++ ")" := by
      rw [← String.toList_inj]
      simp [Tree.form]
    rw [text]
    exact combines.negation

theorem group (arranges : Arranges 1 cs e) : Arranges 3 ('(' :: (cs ++ [')'])) e := by
  obtain ⟨ordered, orders, rest⟩ := arranges
  exact ⟨ordered, orders.group, rest⟩

theorem join (k : Connective) (first : Arranges k.rank.binding cs e) (second : Arranges n ds d)
    (less : k.rank.binding < n) : Arranges k.rank.binding (cs ++ k.mark :: ds) (.join k d e) := by
  obtain ⟨operator, binds, groups, _⟩ := k.mark_spec
  obtain ⟨ordered, orders, tokens, combined⟩ := first
  obtain ⟨ordered', orders', tokens', combined'⟩ := second
  refine ⟨ordered ++ (ordered' ++ [k.mark]), orders.binary orders' operator binds groups less, ?_, fun short => ?_⟩
  · refine forall_mem_append.mpr ⟨tokens, forall_mem_append.mpr ⟨tokens', ?_⟩⟩
    exact forall_mem_singleton.mpr (.inr operator)
  · obtain ⟨p, combines, same⟩ := combined short.join.2
    obtain ⟨q, combines', same'⟩ := combined' short.join.1
    -- the part that is read first comes from the right
    refine ⟨.join k p q, ?_, (Tree.Same.comm k p q).trans (same'.join k same)⟩
    cases k with
    | conjunction =>
      have text : String.ofList (Tree.join .conjunction p q).form =
          "(& " ++ String.ofList p.form ++ " " ++ String.ofList q.form ++ ")" := by
        rw [← String.toList_inj]
        simp [Tree.form, Connective.mark]
      rw [text]
      exact combines.conjunction combines'
    | disjunction =>
      have text : String.ofList (Tree.join .disjunction p q).form =
          "(| " ++ String.ofList p.form ++ " " ++ String.ofList q.form ++ ")" := by
        rw [← String.toList_inj]
        simp [Tree.form, Connective.mark]
      rw [text]
      exact combines.disjunction combines'

end Arranges

/-- A chain of tighter parts between which a connective stands, grouped from its end. -/
inductive Series (k : Connective) : List Char → Tree → Prop where
  | one {s : List Char} {e : Tree} (part : Arranges (k.rank.binding + 1) (reversed s) e) : Series k s e
  | cons {s t : List Char} {d e : Tree} (part : Arranges (k.rank.binding + 1) (reversed s) d) (rest : Series k t e) :
      Series k (s ++ k.mark :: t) (.join k d e)

namespace Series

variable {k : Connective} {s t : List Char} {d e : Tree}

theorem append (first : Series k s d) (second : Series k t e) :
    ∃ f : Tree, Series k (s ++ k.mark :: t) f ∧ f.Same (.join k d e) := by
  induction first with
  | one part => exact ⟨_, .cons part second, .refl _⟩
  | @cons s₁ s₂ d₁ d₂ part rest ih =>
    obtain ⟨f, series, same⟩ := ih
    refine ⟨.join k d₁ f, ?_, (((Tree.Same.refl d₁).join k same)).trans (Tree.Same.assoc k d₁ d₂ e).symm⟩
    rw [append_assoc, cons_append]
    exact .cons part series

theorem arranges (series : Series k s e) : Arranges k.rank.binding (reversed s) e := by
  induction series with
  | one part => exact part.mono (Nat.le_succ _)
  | @cons s t d e part rest ih =>
    have shape : reversed (s ++ k.mark :: t) = reversed t ++ k.mark :: reversed s := by
      rw [reversed_append]
      simp [reversed, k.mark_spec.2.2.2]
    rw [shape]
    exact ih.join k part (Nat.lt_succ_self _)

end Series

/-- What is known about the texts of a rank. -/
def Rank.Arranged : Rank → List Char → Tree → Prop
  | .factor, s, e => Arranges 3 (reversed s) e
  | .conjunction, s, e => ∃ f : Tree, Series .conjunction s f ∧ f.Same e
  | .disjunction, s, e => ∃ f : Tree, Series .disjunction s f ∧ f.Same e

theorem Spells.arranged {r : Rank} (spells : Spells r e s) : r.Arranged s e := by
  induction spells with
  | operand _ word => exact .operand word
  | @not e s _ ih =>
    have shape : reversed ('!' :: s) = reversed s ++ ['!'] := by simp [reversed, turn]
    rw [Rank.Arranged, shape]
    exact Arranges.not ih
  | @group e s _ ih =>
    obtain ⟨f, series, same⟩ := ih
    have shape : reversed ('(' :: (s ++ [')'])) = '(' :: (reversed s ++ [')']) := by simp [reversed, turn]
    rw [Rank.Arranged, shape]
    exact (series.arranges.congr same).group
  | factor _ ih => exact ⟨_, .one ih, .refl _⟩
  | conjunction _ ih =>
    obtain ⟨f, series, same⟩ := ih
    exact ⟨f, .one series.arranges, same⟩
  | join k _ _ ihd ihe =>
    cases k with
    | conjunction | disjunction =>
      obtain ⟨f, left, same⟩ := ihd
      obtain ⟨g, right, same'⟩ := ihe
      obtain ⟨h, series, joined⟩ := left.append right
      exact ⟨h, series, joined.trans (same.join _ same')⟩

theorem Spells.arranges (spells : Spells .disjunction e s) : Arranges 1 (reversed s) e := by
  obtain ⟨f, series, same⟩ := spells.arranged
  exact series.arranges.congr same

/-! ## Prefix forms -/

/-- The expression whose text is the prefix form of a label. -/
def HasForm (label : String) (p : Tree) : Prop := p.IsPlain ∧ prefixForm label = .ok (String.ofList p.form)

theorem HasForm.unique {p q : Tree} (form : HasForm label p) (form' : HasForm label q) : p = q := by
  have same := Except.ok.inj (form.2.symm.trans form'.2)
  exact Tree.form_inj form.1 form'.1 (String.ofList_injective same)

theorem Spells.exists_hasForm (spells : Spells .disjunction e (label.toList.filter (· != ' '))) (short : e.IsShort) :
    ∃ p : Tree, HasForm label p ∧ p.Same e := by
  obtain ⟨ordered, orders, _, combined⟩ := spells.arranges
  obtain ⟨p, combines, same⟩ := combined short
  exact ⟨p, ⟨same.symm.isPlain spells.isPlain, combines.prefixForm_eq orders rfl⟩, same⟩

/-- An expression over single characters has a prefix form, which is the text of one expression only, and this one
has the same operands and the same truth values. -/
theorem prefixForm_keeps_expression {e : Tree} {label : String}
    (spells : Spells .disjunction e (label.toList.filter (· != ' '))) (short : e.IsShort) :
    ∃ p : Tree, (∀ q, HasForm label q ↔ q = p) ∧ p.operands.Perm e.operands ∧
      ∀ truth, p.eval truth = e.eval truth := by
  obtain ⟨p, form, operands, truths⟩ := spells.exists_hasForm short
  refine ⟨p, fun q => ⟨fun other => other.unique form, ?_⟩, operands, truths⟩
  rintro rfl
  exact form

def outside : Tree :=
  .join .disjunction
    (.join .conjunction (.not (.join .disjunction (.operand ['a']) (.operand ['b']))) (.operand ['3']))
    (.not (.not (.operand ['a'])))

theorem spells_outside : Spells .disjunction outside ("! ((a) | b)&3 | !!a".toList.filter (· != ' ')) := by
  have a : Spells .factor (.operand ['a']) ['a'] := .operand (by decide) (by decide)
  have b : Spells .factor (.operand ['b']) ['b'] := .operand (by decide) (by decide)
  have three : Spells .factor (.operand ['3']) ['3'] := .operand (by decide) (by decide)
  have either : Spells .disjunction (.join .disjunction (.operand ['a']) (.operand ['b'])) "(a)|b".toList :=
    .join .disjunction (.conjunction (.factor (.group (.conjunction (.factor a))))) (.conjunction (.factor b))
  have both : Spells .conjunction
      (.join .conjunction (.not (.join .disjunction (.operand ['a']) (.operand ['b']))) (.operand ['3']))
      "!((a)|b)&3".toList :=
    .join .conjunction (.factor (.not (.group either))) (.factor three)
  exact .join .disjunction (.conjunction both) (.conjunction (.factor (.not (.not a))))

theorem prefixForm_keeps_outside : ∃ p : Tree, (∀ q, HasForm "! ((a) | b)&3 | !!a" q ↔ q = p) ∧
    p.operands.Perm outside.operands ∧ ∀ truth, p.eval truth = outside.eval truth :=
  prefixForm_keeps_expression spells_outside (by unfold Tree.IsShort; decide)

/-! ## Long operands -/

def IsShortForm (t : String) : Prop := ∃ p : Tree, p.IsPlain ∧ p.IsShort ∧ t = String.ofList p.form

theorem combine_isShortForm {ordered : List Char} {stack result : List String} (tokens : ∀ c ∈ ordered, IsToken c)
    (forms : ∀ t ∈ stack, IsShortForm t) (combined : combine stack ordered = .ok result) :
    ∀ t ∈ result, IsShortForm t := by
  induction ordered generalizing stack with
  | nil =>
    cases combined
    exact forms
  | cons c cs ih =>
    obtain ⟨first, others⟩ := forall_mem_cons.mp tokens
    unfold combine at combined
    dsimp only at combined
    split at combined
    · rename_i operand
      refine ih others (forall_mem_cons.mpr ⟨⟨.operand [c], ?_, ?_, rfl⟩, forms⟩) combined
      · simpa [Tree.IsPlain, Tree.operands] using operand
      · simp [Tree.IsShort, Tree.operands]
    · rename_i operator
      have mark : c ∈ ['!', '&', '|'] := first.resolve_left operator
      split at combined
      · rename_i negation
        split at combined
        · rename_i a stack
          obtain ⟨⟨p, plain, short, text⟩, below⟩ := forall_mem_cons.mp forms
          refine ih others (forall_mem_cons.mpr ⟨⟨.not p, plain, short, ?_⟩, below⟩) combined
          rw [← String.toList_inj]
          simp [Tree.form, text, show c = '!' by simpa using negation]
        · cases combined
      · rename_i other
        split at combined
        · rename_i b a stack
          obtain ⟨⟨q, plain', short', text'⟩, below⟩ := forall_mem_cons.mp forms
          obtain ⟨⟨p, plain, short, text⟩, below⟩ := forall_mem_cons.mp below
          have connective : ∃ k : Connective, c = k.mark := by
            have rest : c = '&' ∨ c = '|' := by simpa [show c ≠ '!' by simpa using other] using mark
            rcases rest with rfl | rfl
            · exact ⟨.conjunction, rfl⟩
            · exact ⟨.disjunction, rfl⟩
          obtain ⟨k, rfl⟩ := connective
          refine ih others (forall_mem_cons.mpr ⟨⟨.join k p q, ?_, ?_, ?_⟩, below⟩) combined
          · exact forall_mem_append.mpr ⟨plain, plain'⟩
          · exact forall_mem_append.mpr ⟨short, short'⟩
          · rw [← String.toList_inj]
            simp [Tree.form, text, text']
        · cases combined

theorem Spells.isShortForm {label form : String}
    (spells : Spells .disjunction e (label.toList.filter (· != ' '))) (result : prefixForm label = .ok form) :
    IsShortForm form := by
  obtain ⟨ordered, orders, tokens, _⟩ := spells.arranges
  obtain ⟨arranged, same, result⟩ := bind_eq_ok.mp result
  obtain rfl : ordered = arranged := Except.ok.inj (orders.postfixForm_eq.symm.trans same)
  obtain ⟨stack, combined, result⟩ := bind_eq_ok.mp result
  have forms := combine_isShortForm tokens (forall_mem_nil _) combined
  split at result
  · rename_i last
    cases result
    exact forms _ (mem_of_getLast? last)
  · cases result

theorem Spells.isShort_of_hasForm {e p : Tree}
    (spells : Spells .disjunction e (label.toList.filter (· != ' '))) (form : HasForm label p)
    (operands : p.operands.Perm e.operands) : e.IsShort := by
  obtain ⟨q, plain, short, text⟩ := spells.isShortForm form.2
  obtain rfl : p = q := Tree.form_inj form.1 plain (String.ofList_injective text)
  exact fun w mem => short w (operands.mem_iff.mpr mem)

end Label

end Supermartingale
