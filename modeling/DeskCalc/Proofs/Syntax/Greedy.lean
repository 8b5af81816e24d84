import DeskCalc.Proofs.Syntax.Sentence

/-!
# Greedy trees

An assignment inside an expression has no end of its own, so the grammar reads `a = 1 + 2` as a sum
as well as an assignment. The productions read it greedily: an operator behind an assignment belongs
to the right side of the assignment.

* `Tree.fits_of_greedy` — a complete greedy tree fits wherever the grammar can put it, unless it
  ends in an assignment and an operator follows.
* `Tree.exists_greedy`, `Sentence.exists_greedy` — whatever the grammar derives has a greedy tree.
-/

namespace DeskCalc

variable {α : Type}

/-! ## Complete greedy trees fit -/

/-- Does a token of this kind stand behind whole expressions only? -/
def closes (k : TokenKind) : Bool := k.endsStatement || k == .rightParen || k == .comma

/-- Can a token of this kind stand behind a complete tree of the level? -/
def mayFollow : Level → TokenKind → Bool
  | .expression, k => closes k || (Operator.additive? k).isSome
  | .primary, k =>
    closes k || (Operator.additive? k).isSome || (Operator.multiplicative? k).isSome || k == .caret
  | _, k => closes k || (Operator.additive? k).isSome || (Operator.multiplicative? k).isSome

theorem mayFollow_of_closes {l : Level} {k : TokenKind} (h : closes k = true) :
    mayFollow l k = true := by
  cases l <;> simp [mayFollow, h]

theorem additive?_of_closes {k : TokenKind} (h : closes k = true) :
    Operator.additive? k = none := by
  cases k <;> first | rfl | simp [closes, TokenKind.endsStatement] at h

theorem mayFollow_mark_of_additive {op : Operator} (h : Operator.additive? op.mark = some op) :
    mayFollow .expression op.mark = true := by
  simp [mayFollow, h]

theorem mayFollow_mark_of_multiplicative {op : Operator}
    (h : Operator.multiplicative? op.mark = some op) : mayFollow .term op.mark = true := by
  simp [mayFollow, h]

theorem mayFollow_term {k : TokenKind} (h : mayFollow .expression k = true) :
    mayFollow .term k = true ∧ Operator.multiplicative? k = none := by
  cases k <;> first | exact ⟨rfl, rfl⟩ | cases h

theorem mayFollow_primary {k : TokenKind} (h : mayFollow .power k = true) :
    mayFollow .primary k = true ∧ k ≠ .caret := by
  cases k <;> first | exact ⟨rfl, by decide⟩ | cases h

theorem mayFollow_ne_equals {l : Level} {k : TokenKind} (h : mayFollow l k = true) :
    k ≠ .equals := by
  rintro rfl
  cases l <;> cases h

namespace Tree

/-- A complete tree has tokens. -/
theorem yield_ne_nil {l : Level} (t : Tree α l) (h : t.Complete) : t.yield ≠ [] := by
  induction t with
  | term t ih => exact ih h
  | factor f ih => exact ih h
  | power p ih => exact ih h
  | primary p ih => exact ih h
  -- all other forms have a token of their own, or are not complete
  | sum => simp [yield]
  | product => simp [yield]
  | sign => simp [yield]
  | raise => simp [yield]
  | number => simp [yield]
  | name => simp [yield]
  | assign => simp [yield]
  | paren => simp [yield]
  | nullary => simp [yield]
  | unary => simp [yield]
  | binary => simp [yield]
  | halfBinary => exact absurd h id
  | function => exact absurd h id
  | missing => exact absurd h id

/-- A complete greedy tree fits in front of whatever the grammar can put behind it, but for an
operator behind an assignment. -/
theorem fits_of_greedy {l : Level} (t : Tree α l) (hc : t.Complete) (hg : t.Greedy)
    {k : TokenKind} (hk : mayFollow l k = true)
    (hopen : t.endsInAssignment = true → closes k = true) : t.Fits k := by
  induction t generalizing k with
  | term t ih => exact ⟨ih hc hg (mayFollow_term hk).1 hopen, (mayFollow_term hk).2⟩
  | factor f ih => exact ih hc hg hk hopen
  -- a sign in front would be taken first, but only an empty power leaves room for one
  | power p ih => exact ⟨ih hc hg hk hopen, fun hnil => absurd hnil (p.yield_ne_nil hc)⟩
  | primary p ih => exact ⟨ih hc hg (mayFollow_primary hk).1 hopen, (mayFollow_primary hk).2⟩
  | sum left op hop right ihl ihr =>
    obtain ⟨hgl, hleft, hgr⟩ := hg
    refine ⟨ihl hc.1 hgl (mayFollow_mark_of_additive hop) (by simp [hleft]), ?_,
      (mayFollow_term hk).2⟩
    exact ihr hc.2 hgr (mayFollow_term hk).1 hopen
  | product left op hop right ihl ihr =>
    obtain ⟨hgl, hleft, hgr⟩ := hg
    refine ⟨ihl hc.1 hgl (mayFollow_mark_of_multiplicative hop) (by simp [hleft]), ?_⟩
    exact ihr hc.2 hgr hk hopen
  | raise base exponent ihb ihx =>
    obtain ⟨hgb, hbase, hgx⟩ := hg
    exact ⟨ihb hc.1 hgb rfl (by simp [hbase]), ihx hc.2 hgx hk hopen⟩
  | sign negative operand ih => exact ih hc hg hk hopen
  | number value => exact trivial
  | name index => exact mayFollow_ne_equals hk
  -- an assignment goes on as far as it can, so what follows must close it
  | assign kind hkind index right ih =>
    have hclose : closes k = true := hopen rfl
    exact ⟨ih hc hg (mayFollow_of_closes hclose) fun _ => hclose, additive?_of_closes hclose⟩
  -- within parentheses an assignment may come last, since the parenthesis closes it
  | paren inner closed ih =>
    obtain ⟨hc, rfl⟩ := hc
    exact ⟨ih hc hg rfl fun _ => rfl, rfl, fun h => absurd h (by simp)⟩
  | nullary index closed => exact fun h => absurd (h.symm.trans hc) (by simp)
  | unary index x closed ih =>
    obtain ⟨hc, rfl⟩ := hc
    exact ⟨ih hc hg rfl fun _ => rfl, rfl, fun h => absurd h (by simp)⟩
  | binary index x y closed ihx ihy =>
    obtain ⟨hcx, hcy, rfl⟩ := hc
    exact ⟨ihx hcx hg.1 rfl fun _ => rfl, ihy hcy hg.2 rfl fun _ => rfl, rfl,
      fun h => absurd h (by simp)⟩
  | halfBinary index x => exact absurd hc id
  | function kind hkind index => exact absurd hc id
  | missing => exact absurd hc id

/-! ## Whatever the grammar derives has a greedy tree -/

/-- An operator with its right operand, as it stands behind a tree. -/
inductive Piece (α : Type) where
  | sum (op : Operator) (hop : Operator.additive? op.mark = some op) (right : Tree α .term)
  | product (op : Operator) (hop : Operator.multiplicative? op.mark = some op)
    (right : Tree α .factor)
  | raise (exponent : Tree α .factor)

namespace Piece

def yield : Piece α → List (Content α)
  | .sum op _ right => .mark op.mark :: right.yield
  | .product op _ right => .mark op.mark :: right.yield
  | .raise exponent => .mark .caret :: exponent.yield

def Complete : Piece α → Prop
  | .sum _ _ right => right.Complete
  | .product _ _ right => right.Complete
  | .raise exponent => exponent.Complete

def Greedy : Piece α → Prop
  | .sum _ _ right => right.Greedy
  | .product _ _ right => right.Greedy
  | .raise exponent => exponent.Greedy

/-- Does the grammar have the piece behind a tree of the level, and the two make one of the same
level? -/
def Extends : Piece α → Level → Prop
  | .sum _ _ _, l => l = .expression
  | .product _ _ _, l => l = .expression ∨ l = .term
  | .raise _, l => l ≠ .primary

end Piece

/-- A piece behind a greedy tree joins it at its right edge: inside the last assignment, if it ends
in one. -/
theorem exists_graft {l : Level} (t : Tree α l) (hc : t.Complete) (hg : t.Greedy) (p : Piece α)
    (hpc : p.Complete) (hpg : p.Greedy) (h : t.endsInAssignment = true ∨ p.Extends l) :
    ∃ t' : Tree α l, t'.Complete ∧ t'.Greedy ∧ t'.yield = t.yield ++ p.yield := by
  induction t with
  | term t ih =>
    -- the piece joins further down if it can, and else it becomes the root of the tree
    by_cases ht : t.endsInAssignment = true ∨ p.Extends .term
    · obtain ⟨t', hc', hg', hy⟩ := ih hc hg ht
      exact ⟨.term t', hc', hg', hy⟩
    · obtain ⟨hends, hp⟩ := not_or.1 ht
      cases p with
      | sum op hop right =>
        exact ⟨.sum (.term t) op hop right, ⟨hc, hpc⟩, ⟨hg, Bool.eq_false_iff.2 hends, hpg⟩, rfl⟩
      | product => exact absurd (Or.inr rfl) hp
      | raise => exact absurd (fun hl => by cases hl) hp
  | sum left op hop right _ ihr =>
    by_cases ht : right.endsInAssignment = true ∨ p.Extends .term
    · obtain ⟨right', hc', hg', hy⟩ := ihr hc.2 hg.2.2 ht
      exact ⟨.sum left op hop right', ⟨hc.1, hc'⟩, ⟨hg.1, hg.2.1, hg'⟩, by simp [yield, hy]⟩
    · obtain ⟨hends, hp⟩ := not_or.1 ht
      cases p with
      | sum op' hop' right' =>
        exact ⟨.sum (.sum left op hop right) op' hop' right', ⟨hc, hpc⟩,
          ⟨hg, Bool.eq_false_iff.2 hends, hpg⟩, rfl⟩
      | product => exact absurd (Or.inr rfl) hp
      | raise => exact absurd (fun hl => by cases hl) hp
  | factor f ih =>
    -- the same one level down
    by_cases hf : f.endsInAssignment = true ∨ p.Extends .factor
    · obtain ⟨f', hc', hg', hy⟩ := ih hc hg hf
      exact ⟨.factor f', hc', hg', hy⟩
    · obtain ⟨hends, hp⟩ := not_or.1 hf
      cases p with
      | sum => exact absurd h (not_or.2 ⟨hends, by rintro ⟨⟩⟩)
      | product op hop right =>
        exact ⟨.product (.factor f) op hop right, ⟨hc, hpc⟩, ⟨hg, Bool.eq_false_iff.2 hends, hpg⟩,
          rfl⟩
      | raise => exact absurd (fun hl => by cases hl) hp
  | product left op hop right _ ihr =>
    by_cases hf : right.endsInAssignment = true ∨ p.Extends .factor
    · obtain ⟨right', hc', hg', hy⟩ := ihr hc.2 hg.2.2 hf
      exact ⟨.product left op hop right', ⟨hc.1, hc'⟩, ⟨hg.1, hg.2.1, hg'⟩, by simp [yield, hy]⟩
    · obtain ⟨hends, hp⟩ := not_or.1 hf
      cases p with
      | sum => exact absurd h (not_or.2 ⟨hends, by rintro ⟨⟩⟩)
      | product op' hop' right' =>
        exact ⟨.product (.product left op hop right) op' hop' right', ⟨hc, hpc⟩,
          ⟨hg, Bool.eq_false_iff.2 hends, hpg⟩, rfl⟩
      | raise => exact absurd (fun hl => by cases hl) hp
  | power q ih =>
    obtain ⟨q', hc', hg', hy⟩ := ih hc hg (h.imp id fun hp => by
      cases p <;> simp_all [Piece.Extends])
    exact ⟨.power q', hc', hg', hy⟩
  | sign negative operand ih =>
    obtain ⟨operand', hc', hg', hy⟩ := ih hc hg h
    exact ⟨.sign negative operand', hc', hg', by simp [yield, hy]⟩
  | primary q ih =>
    by_cases hends : q.endsInAssignment = true
    · obtain ⟨q', hc', hg', hy⟩ := ih hc hg (Or.inl hends)
      exact ⟨.primary q', hc', hg', hy⟩
    · cases p with
      | sum => exact absurd h (not_or.2 ⟨hends, by rintro ⟨⟩⟩)
      | product => exact absurd h (not_or.2 ⟨hends, by rintro (⟨⟨⟩⟩ | ⟨⟨⟩⟩)⟩)
      | raise exponent =>
        exact ⟨.raise q exponent, ⟨hc, hpc⟩, ⟨hg, Bool.eq_false_iff.2 hends, hpg⟩, rfl⟩
  | raise base exponent _ ihx =>
    obtain ⟨exponent', hc', hg', hy⟩ := ihx hc.2 hg.2.2 (h.imp id fun hp => by
      cases p <;> simp_all [Piece.Extends])
    exact ⟨.raise base exponent', ⟨hc.1, hc'⟩, ⟨hg.1, hg.2.1, hg'⟩, by simp [yield, hy]⟩
  | assign kind hkind index right ih =>
    -- any piece can stand behind the right side, which is an expression
    obtain ⟨right', hc', hg', hy⟩ := ih hc hg (Or.inr (by cases p <;> simp [Piece.Extends]))
    exact ⟨.assign kind hkind index right', hc', hg', by simp [yield, hy]⟩
  | number => exact absurd h (by cases p <;> simp [endsInAssignment, Piece.Extends])
  | name => exact absurd h (by cases p <;> simp [endsInAssignment, Piece.Extends])
  | paren => exact absurd h (by cases p <;> simp [endsInAssignment, Piece.Extends])
  | nullary => exact absurd h (by cases p <;> simp [endsInAssignment, Piece.Extends])
  | unary => exact absurd h (by cases p <;> simp [endsInAssignment, Piece.Extends])
  | binary => exact absurd h (by cases p <;> simp [endsInAssignment, Piece.Extends])
  | halfBinary => exact absurd hc id
  | function => exact absurd hc id
  | missing => exact absurd hc id

/-- Whatever the grammar derives, it derives with all assignments as far to the right as they can
extend. -/
theorem exists_greedy {l : Level} (t : Tree α l) (hc : t.Complete) :
    ∃ t' : Tree α l, t'.Complete ∧ t'.Greedy ∧ t'.yield = t.yield := by
  induction t with
  | term t ih =>
    obtain ⟨t', hc', hg', hy⟩ := ih hc
    exact ⟨.term t', hc', hg', hy⟩
  | factor f ih =>
    obtain ⟨f', hc', hg', hy⟩ := ih hc
    exact ⟨.factor f', hc', hg', hy⟩
  | power p ih =>
    obtain ⟨p', hc', hg', hy⟩ := ih hc
    exact ⟨.power p', hc', hg', hy⟩
  | primary p ih =>
    obtain ⟨p', hc', hg', hy⟩ := ih hc
    exact ⟨.primary p', hc', hg', hy⟩
  | sum left op hop right ihl ihr =>
    obtain ⟨left', hcl, hgl, hyl⟩ := ihl hc.1
    obtain ⟨right', hcr, hgr, hyr⟩ := ihr hc.2
    -- the left part may end in an assignment now, which the right part has to join
    obtain ⟨t', hc', hg', hy⟩ :=
      left'.exists_graft hcl hgl (.sum op hop right') hcr hgr (Or.inr rfl)
    exact ⟨t', hc', hg', by simp [hy, yield, Piece.yield, hyl, hyr]⟩
  | product left op hop right ihl ihr =>
    obtain ⟨left', hcl, hgl, hyl⟩ := ihl hc.1
    obtain ⟨right', hcr, hgr, hyr⟩ := ihr hc.2
    obtain ⟨t', hc', hg', hy⟩ :=
      left'.exists_graft hcl hgl (.product op hop right') hcr hgr (Or.inr (Or.inr rfl))
    exact ⟨t', hc', hg', by simp [hy, yield, Piece.yield, hyl, hyr]⟩
  | raise base exponent ihb ihx =>
    obtain ⟨base', hcb, hgb, hyb⟩ := ihb hc.1
    obtain ⟨exponent', hcx, hgx, hyx⟩ := ihx hc.2
    obtain ⟨t', hc', hg', hy⟩ :=
      (Tree.primary base').exists_graft hcb hgb (.raise exponent') hcx hgx
        (Or.inr fun hl => by cases hl)
    exact ⟨t', hc', hg', by simp [hy, yield, Piece.yield, hyb, hyx]⟩
  | sign negative operand ih =>
    obtain ⟨operand', hc', hg', hy⟩ := ih hc
    exact ⟨.sign negative operand', hc', hg', by simp [yield, hy]⟩
  | number value => exact ⟨.number value, trivial, trivial, rfl⟩
  | name index => exact ⟨.name index, trivial, trivial, rfl⟩
  | assign kind hkind index right ih =>
    obtain ⟨right', hc', hg', hy⟩ := ih hc
    exact ⟨.assign kind hkind index right', hc', hg', by simp [yield, hy]⟩
  | paren inner closed ih =>
    obtain ⟨inner', hc', hg', hy⟩ := ih hc.1
    exact ⟨.paren inner' closed, ⟨hc', hc.2⟩, hg', by simp [yield, hy]⟩
  | nullary index closed => exact ⟨.nullary index closed, hc, trivial, rfl⟩
  | unary index x closed ih =>
    obtain ⟨x', hc', hg', hy⟩ := ih hc.1
    exact ⟨.unary index x' closed, ⟨hc', hc.2⟩, hg', by simp [yield, hy]⟩
  | binary index x y closed ihx ihy =>
    obtain ⟨x', hcx, hgx, hx⟩ := ihx hc.1
    obtain ⟨y', hcy, hgy, hy⟩ := ihy hc.2.1
    exact ⟨.binary index x' y' closed, ⟨hcx, hcy, hc.2.2⟩, ⟨hgx, hgy⟩, by simp [yield, hx, hy]⟩
  | halfBinary => exact absurd hc id
  | function => exact absurd hc id
  | missing => exact absurd hc id

/-- A greedy tree that starts with an assignment is that assignment. -/
theorem eq_assignment_of_greedy {l : Level} (t : Tree α l) (hc : t.Complete) (hg : t.Greedy)
    (h : t.startsWithAssignment = true) :
    t.endsInAssignment = true ∧ ∃ kind, ∃ hkind : kind.isName = true, ∃ index,
      ∃ right : Tree α .expression, right.Complete ∧ right.Greedy ∧
        t.yield = (Sentence.assignment kind hkind index right).yield := by
  induction t with
  | term t ih => exact ih hc hg h
  | factor f ih => exact ih hc hg h
  | power p ih => exact ih hc hg h
  | primary p ih => exact ih hc hg h
  -- the left operand would end in an assignment, which no operator can follow
  | sum left op hop right ihl _ => exact absurd (ihl hc.1 hg.1 h).1 (by simp [hg.2.1])
  | product left op hop right ihl _ => exact absurd (ihl hc.1 hg.1 h).1 (by simp [hg.2.1])
  | raise base exponent ihb _ => exact absurd (ihb hc.1 hg.1 h).1 (by simp [hg.2.1])
  | assign kind hkind index right => exact ⟨rfl, kind, hkind, index, right, hc, hg, rfl⟩
  | sign => cases h
  | number => cases h
  | name => cases h
  | paren => cases h
  | nullary => cases h
  | unary => cases h
  | binary => cases h
  | halfBinary => cases h
  | function => cases h
  | missing => cases h

end Tree

namespace Sentence

theorem yield_ne_nil (t : Sentence α) (h : t.Complete) : t.yield ≠ [] := by
  cases t with
  | assignment => simp [yield]
  | expression t => exact t.yield_ne_nil h

/-- A complete greedy sentence fits in front of the end of a statement. -/
theorem fits_of_greedy (t : Sentence α) (hc : t.Complete) (hg : t.Greedy) :
    t.Fits .endOfStatement := by
  cases t with
  | assignment kind hkind index right =>
    exact ⟨right.fits_of_greedy hc hg rfl fun _ => rfl, rfl⟩
  | expression t => exact ⟨t.fits_of_greedy hc hg.1 rfl fun _ => rfl, rfl, hg.2⟩

/-- Whatever the grammar derives as a sentence has a greedy sentence. -/
theorem exists_greedy (t : Sentence α) (hc : t.Complete) :
    ∃ t' : Sentence α, t'.Complete ∧ t'.Greedy ∧ t'.yield = t.yield := by
  cases t with
  | assignment kind hkind index right =>
    obtain ⟨right', hc', hg', hy⟩ := right.exists_greedy hc
    exact ⟨.assignment kind hkind index right', hc', hg', by simp [yield, hy]⟩
  | expression t =>
    obtain ⟨t', hc', hg', hy⟩ := t.exists_greedy hc
    cases hstart : t'.startsWithAssignment with
    | false => exact ⟨.expression t', hc', ⟨hg', hstart⟩, hy⟩
    | true =>
      -- an assignment at the front takes in everything behind it, so it is all there is
      obtain ⟨-, kind, hkind, index, right, hcr, hgr, hyr⟩ :=
        t'.eq_assignment_of_greedy hc' hg' hstart
      exact ⟨.assignment kind hkind index right, hcr, hgr, hyr.symm.trans hy⟩

end Sentence

end DeskCalc
