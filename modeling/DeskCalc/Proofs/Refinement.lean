import DeskCalc.Double.Checked
import DeskCalc.Proofs.Reports
import DeskCalc.Proofs.Syntax.Greedy
import DeskCalc.Run

/-!
# Evaluating while reading

The productions evaluate a statement while they read it. This module shows that they come to what
reading first and evaluating the tree afterwards comes to.

* `Evaluation.atEnd` — an outcome, with the rest of its statement read.
* `atEnd_operate` and its like — an operation can wait for the rest of the statement to be read.
* `Tree.atEnd_follow` — following a tree and evaluating it come to the same.
* `statement_eq_evaluate` — so a statement comes to what its greedy tree evaluates to.
-/

namespace DeskCalc

variable {α : Type} [Arithmetic α]

namespace Evaluation

/-! ## Operations can wait -/

/-- What is left of an outcome when the rest of the statement has been read. -/
def atEnd (r : α × Evaluation α) : α × Memory α := remembered (r.1, r.2.skip)

theorem atEnd_of_endsStatement {r : α × Evaluation α} (h : r.2.current.kind.endsStatement = true) :
    atEnd r = remembered r := by
  rw [atEnd, skip_of_endsStatement h]

/-- The end of the statement is the same behind its next token. -/
theorem skip_advance_of_upcoming {e : Evaluation α} {c : Content α} {rest : List (Content α)}
    (h : e.upcoming = c :: rest) : e.advance.skip = e.skip :=
  skip_advance (of_upcoming_eq_cons h).1

/-- A failure can wait for the rest of the statement. -/
theorem Settled.atEnd_fail {e : Evaluation α} (hs : e.Settled) (problem : Problem)
    (h : problem.kind.ofReading = false) :
    atEnd (e.fail problem) = e.skip.memory.fail problem :=
  hs.skip_memory_of_persistent (Memory.persistent_fail problem) (Nat.zero_le _)
    (view_fail problem e h) (memory_fail h e)

/-- A checked function can wait for the rest of the statement. -/
theorem Settled.atEnd_checked {e : Evaluation α} (hs : e.Settled) (result : Except MathError α) :
    atEnd (e.checked result) = e.skip.memory.checked result :=
  hs.skip_memory_of_persistent (Memory.persistent_checked result) (Nat.zero_le _)
    (view_checked result e) (memory_checked result e)

theorem Settled.atEnd_operate {e : Evaluation α} (hs : e.Settled) (op : Operator)
    (left right : α) : atEnd (e.operate op left right) = e.skip.memory.operate op left right :=
  hs.skip_memory_of_persistent (Memory.persistent_operate op left right) (Nat.zero_le _)
    (view_operate op left right e) (memory_operate op left right e)

theorem Settled.atEnd_read {e : Evaluation α} (hs : e.Settled) {index : Nat}
    (h : index < e.session.table.size) : atEnd (e.read index) = e.skip.memory.read index :=
  hs.skip_memory_of_persistent (Memory.persistent_read index) h (view_read index e)
    (memory_read index e)

theorem Settled.atEnd_assign {e : Evaluation α} (hs : e.Settled) {index : Nat}
    (h : index < e.session.table.size) (value : α) :
    atEnd (e.assign index value) = e.skip.memory.assign index value :=
  hs.skip_memory_of_persistent (Memory.persistent_assign index value) h (view_assign index value e)
    (memory_assign index value e)

theorem Settled.atEnd_apply {e : Evaluation α} (hs : e.Settled) {index : Nat}
    (h : index < e.session.table.size) (arguments : List α) :
    atEnd (e.apply index arguments) = e.skip.memory.apply index arguments :=
  hs.skip_memory_of_persistent (Memory.persistent_apply index arguments) h
    (view_apply index arguments e) (memory_apply index arguments e)

/-- A call can wait for the rest of the statement, and so can the parenthesis that closes it. -/
theorem Settled.atEnd_finishCall {e : Evaluation α} (hs : e.Settled) {closed : Bool}
    {rest : List (Content α)} (h : e.upcoming = closing closed ++ rest)
    (hopen : closed = false → nextKind rest ≠ .rightParen) {index : Nat}
    (hindex : index < e.session.table.size) (arguments : List α) :
    atEnd (e.finishCall index arguments) = e.skip.memory.finishCall closed index arguments := by
  rw [finishCall_eq h hopen]
  cases closed with
  | true =>
    have hmoved := movesTo_advance h
    -- the table only grows, so the place is one of the table when the call is made
    have hindex' : index < e.advance.session.table.size :=
      Nat.lt_of_lt_of_le hindex hmoved.1.size_le
    show atEnd (e.advance.apply index arguments) = e.skip.memory.apply index arguments
    rw [hs.advance.atEnd_apply hindex', skip_advance_of_upcoming h]
  | false => exact hs.atEnd_fail _ rfl

/-- A missing parenthesis is reported, and that can wait, too. -/
theorem Settled.skip_memory_close {e : Evaluation α} (hs : e.Settled) {closed : Bool}
    {rest : List (Content α)} (h : e.upcoming = closing closed ++ rest)
    (hopen : closed = false → nextKind rest ≠ .rightParen) :
    e.close.skip.memory =
      if closed then e.skip.memory else e.skip.memory.report (.expected ")") := by
  -- the parenthesis is there or not, as the tree says
  rw [close_eq h hopen]
  cases closed with
  | true =>
    show e.advance.skip.memory = e.skip.memory
    rw [skip_advance_of_upcoming h]
  | false => exact congrArg Prod.snd (hs.atEnd_fail (.expected ")") rfl)

/-- The place of a name of the run is a place of the table. -/
theorem Settled.index_lt {e : Evaluation α} (hs : e.Settled) {kind : TokenKind} {index : Nat}
    {rest : List (Content α)} (h : e.upcoming = (kind, .symbol index) :: rest)
    (hname : kind.isName = true) : index < e.session.table.size := by
  obtain ⟨hkind, hsymbol⟩ := of_upcoming_eq_symbol h
  obtain ⟨index', hsymbol', hlt⟩ := hs.exists_symbol (by rwa [hkind])
  rw [hsymbol, Option.some.injEq] at hsymbol'
  rwa [hsymbol']

theorem MovesTo.index_lt {e e' : Evaluation α} {rest : List (Content α)} (h : MovesTo e e' rest)
    {index : Nat} (hindex : index < e.session.table.size) : index < e'.session.table.size :=
  Nat.lt_of_lt_of_le hindex h.1.size_le

end Evaluation

open Evaluation

/-! ## Trees -/

/-- Two parts of a tree with a token between them: the second one starts with the memory that the
first one left. -/
theorem Tree.atEnd_second {l l' : Level} {left : Tree α l} {right : Tree α l'} {e : Evaluation α}
    (hs : e.Settled) {c : Content α} {rest : List (Content α)}
    (h : e.upcoming = left.yield ++ c :: (right.yield ++ rest)) (hleft : left.Fits c.1)
    (hright : right.Fits (nextKind rest))
    (hl : atEnd (left.follow e) = left.evaluate e.skip.memory)
    (hr : ∀ {e' : Evaluation α}, e'.Settled → e'.upcoming = right.yield ++ rest →
      atEnd (right.follow e') = right.evaluate e'.skip.memory) :
    MovesTo e (right.follow (left.follow e).2.advance).2 rest ∧
      (left.follow e).1 = (left.evaluate e.skip.memory).1 ∧
      atEnd (right.follow (left.follow e).2.advance) =
        right.evaluate (left.evaluate e.skip.memory).2 := by
  have hmoved := left.movesTo_follow h hleft
  have hsettled := hmoved.1.settled hs
  refine ⟨hmoved.advance.trans (right.movesTo_follow hmoved.advance.2 hright),
    congrArg Prod.fst hl, ?_⟩
  -- the memory at the end is the same from wherever in the statement it is looked for
  rw [hr hsettled.advance hmoved.advance.2, skip_advance_of_upcoming hmoved.2, ← hl]
  rfl

/-- Following a tree and evaluating it come to the same, when the statement has been read. -/
theorem Tree.atEnd_follow {l : Level} (t : Tree α l) {e : Evaluation α} (hs : e.Settled)
    {rest : List (Content α)} (h : e.upcoming = t.yield ++ rest) (hfits : t.Fits (nextKind rest)) :
    atEnd (t.follow e) = t.evaluate e.skip.memory := by
  -- by induction on the tree: its parts are followed in the order in which they are evaluated
  induction t generalizing e rest with
  | term t ih => exact ih hs h hfits.1
  | factor f ih => exact ih hs h hfits
  | power p ih => exact ih hs h hfits.1
  | primary p ih => exact ih hs h hfits.1
  | sum left op hop right ihl ihr =>
    obtain ⟨hleft, hright, -⟩ := hfits
    simp only [yield, List.append_assoc, List.cons_append] at h
    obtain ⟨hmoved, hx, hy⟩ := atEnd_second hs h hleft hright (ihl hs h hleft)
      fun hs' h' => ihr hs' h' hright
    -- the operation comes last, and can wait for the rest of the statement
    have hop' := (hmoved.1.settled hs).atEnd_operate op (left.follow e).1
      (right.follow (left.follow e).2.advance).1
    rw [evaluate, ← hx, ← hy]
    exact hop'
  | product left op hop right ihl ihr =>
    obtain ⟨hleft, hright⟩ := hfits
    simp only [yield, List.append_assoc, List.cons_append] at h
    obtain ⟨hmoved, hx, hy⟩ := atEnd_second hs h hleft hright (ihl hs h hleft)
      fun hs' h' => ihr hs' h' hright
    have hop' := (hmoved.1.settled hs).atEnd_operate op (left.follow e).1
      (right.follow (left.follow e).2.advance).1
    rw [evaluate, ← hx, ← hy]
    exact hop'
  | raise base exponent ihb ihx =>
    obtain ⟨hbase, hexponent⟩ := hfits
    simp only [yield, List.append_assoc, List.cons_append] at h
    obtain ⟨hmoved, hx, hy⟩ := atEnd_second hs h hbase hexponent (ihb hs h hbase)
      fun hs' h' => ihx hs' h' hexponent
    have hpower := (hmoved.1.settled hs).atEnd_checked
      (Arithmetic.power (base.follow e).1 (exponent.follow (base.follow e).2.advance).1)
    rw [evaluate, ← hx, ← hy]
    exact hpower
  | sign negative operand ih =>
    have hv := ih hs.advance (movesTo_advance h).2 hfits
    rw [skip_advance_of_upcoming h] at hv
    rw [evaluate, ← hv]
    rfl
  | number value =>
    show (value, e.advance.skip.memory) = (value, e.skip.memory)
    rw [skip_advance_of_upcoming h]
  -- the table has the name already when the tokens behind it are read, so these change nothing of
  -- it
  | name index =>
    have hindex := (movesTo_advance h).index_lt (hs.index_lt h rfl)
    show atEnd (e.advance.read index) = e.skip.memory.read index
    rw [hs.advance.atEnd_read hindex, skip_advance_of_upcoming h]
  | assign kind hkind index right ih =>
    have hr := (movesTo_advance h).advance
    have hmoved := right.movesTo_follow hr.2 hfits.1
    have hv := ih hs.advance.advance hr.2 hfits.1
    rw [skip_advance_of_upcoming (movesTo_advance h).2, skip_advance_of_upcoming h] at hv
    have hindex := (hr.trans hmoved).index_lt (hs.index_lt h hkind)
    rw [evaluate, ← hv]
    exact (hmoved.1.settled hs.advance.advance).atEnd_assign hindex _
  | paren inner closed ih =>
    obtain ⟨hinner, -, hopen⟩ := hfits
    simp only [yield, List.append_assoc, List.cons_append] at h
    rw [← nextKind_closing] at hinner
    have hmoved := inner.movesTo_follow (movesTo_advance h).2 hinner
    have hv := ih hs.advance (movesTo_advance h).2 hinner
    rw [skip_advance_of_upcoming h] at hv
    rw [evaluate, ← hv]
    exact congrArg (Prod.mk _) ((hmoved.1.settled hs.advance).skip_memory_close hmoved.2 hopen)
  | nullary index closed =>
    have hmoved := (movesTo_advance h).advance
    have hcall := hs.advance.advance.atEnd_finishCall hmoved.2 hfits
      (hmoved.index_lt (hs.index_lt h rfl)) []
    rw [skip_advance_of_upcoming (movesTo_advance h).2, skip_advance_of_upcoming h] at hcall
    exact hcall
  | unary index x closed ih =>
    obtain ⟨hx, -, hopen⟩ := hfits
    simp only [yield, List.append_assoc, List.cons_append] at h
    rw [← nextKind_closing] at hx
    have hstart := (movesTo_advance h).advance
    have hmoved := x.movesTo_follow hstart.2 hx
    have hv := ih hs.advance.advance hstart.2 hx
    rw [skip_advance_of_upcoming (movesTo_advance h).2, skip_advance_of_upcoming h] at hv
    have hindex := (hstart.trans hmoved).index_lt (hs.index_lt h rfl)
    rw [evaluate, ← hv]
    exact (hmoved.1.settled hs.advance.advance).atEnd_finishCall hmoved.2 hopen hindex _
  | binary index x y closed ihx ihy =>
    obtain ⟨hx, hy, -, hopen⟩ := hfits
    simp only [yield, List.append_assoc, List.cons_append] at h
    rw [← nextKind_closing] at hy
    have hstart := (movesTo_advance h).advance
    obtain ⟨hmoved, hx', hy'⟩ := atEnd_second hs.advance.advance hstart.2 hx hy
      (ihx hs.advance.advance hstart.2 hx) fun hs' h' => ihy hs' h' hy
    rw [skip_advance_of_upcoming (movesTo_advance h).2, skip_advance_of_upcoming h] at hx' hy'
    have hindex := (hstart.trans hmoved).index_lt (hs.index_lt h rfl)
    rw [evaluate, ← hx', ← hy']
    exact (hmoved.1.settled hs.advance.advance).atEnd_finishCall hmoved.2 hopen hindex _
  | halfBinary index x ih =>
    have hstart := (movesTo_advance h).advance
    have hmoved := x.movesTo_follow hstart.2 hfits.1
    have hv := ih hs.advance.advance hstart.2 hfits.1
    rw [skip_advance_of_upcoming (movesTo_advance h).2, skip_advance_of_upcoming h] at hv
    rw [evaluate, ← hv]
    exact (hmoved.1.settled hs.advance.advance).atEnd_fail _ rfl
  | function kind hkind index =>
    show atEnd (e.advance.fail (.expected "(")) = _
    rw [hs.advance.atEnd_fail _ rfl, skip_advance_of_upcoming h]
    rfl
  | missing => exact hs.atEnd_fail _ rfl

/-! ## Statements -/

/-- The sentence as an expression. -/
def Sentence.tree : Sentence α → Tree α .expression
  | .assignment kind hkind index right =>
    .term (.factor (.power (.primary (.assign kind hkind index right))))
  | .expression t => t

/-- The same of a sentence, as far as the value goes. -/
theorem Sentence.atEnd_follow (t : Sentence α) {e : Evaluation α} (hs : e.Settled)
    {rest : List (Content α)} (h : e.upcoming = t.yield ++ rest) (hfits : t.Fits (nextKind rest)) :
    atEnd ((t.follow e).1.value, (t.follow e).2) = t.tree.evaluate e.skip.memory := by
  cases t with
  | assignment kind hkind index right =>
    exact (Tree.assign kind hkind index right).atEnd_follow hs h hfits
  | expression t => exact t.atEnd_follow hs h hfits.1

namespace Evaluation

/-- A statement whose tokens are those of a sentence that fits comes to what the sentence evaluates
to. -/
theorem Ready.statement_of_fits {e : Evaluation α} (h : e.Ready) (t : Sentence α)
    (hup : e.toStatement.upcoming = t.yield) (hne : t.yield ≠ [])
    (hfits : t.Fits .endOfStatement) :
    e.statement.1 = some (t.evaluate e.toStatement.skip.memory).1 ∧
      e.statement.2.memory = (t.evaluate e.toStatement.skip.memory).2 := by
  have hs := h.settled_toStatement
  have hup' : e.toStatement.upcoming = t.yield ++ [] := by rw [hup, List.append_nil]
  have hk : e.toStatement.current.kind ≠ .finish := by
    intro hk
    exact hne (hup.symm.trans (e.upcoming_toStatement_eq_nil_iff.2 hk))
  -- the tree takes the whole run, so there is nothing to skip behind it
  have hend : (t.follow e.toStatement).2.current.kind.endsStatement = true :=
    upcoming_eq_nil_iff.1 (t.movesTo_follow hup' hfits).2
  rw [statement_of_ne_finish hk, t.body_eq_follow hs hup' hfits]
  simp only [conclude_of_endsStatement hend]
  cases t with
  | assignment kind hkind index right =>
    -- the right side is read behind the name and the sign
    have hright := (movesTo_advance hup).advance
    have hup'' : e.toStatement.advance.advance.upcoming = right.yield ++ [] := by
      rw [hright.2, List.append_nil]
    have hmoved := right.movesTo_follow hup'' hfits.1
    have hv := right.atEnd_follow hs.advance.advance hup'' hfits.1
    have hindex := (hright.trans hmoved).index_lt (hs.index_lt hup hkind)
    have hassign := (hmoved.1.settled hs.advance.advance).atEnd_assign hindex
      (right.follow e.toStatement.advance.advance).1
    rw [skip_advance_of_upcoming (movesTo_advance hup).2, skip_advance_of_upcoming hup] at hv
    rw [atEnd_of_endsStatement (by exact hend)] at hassign
    rw [Sentence.evaluate, ← hv]
    exact ⟨congrArg (fun r : α × Memory α => some (Statement.assignment r.1)) hassign,
      congrArg Prod.snd hassign⟩
  | expression t =>
    have hv := t.atEnd_follow hs hup' hfits.1
    rw [atEnd_of_endsStatement (by exact hend)] at hv
    rw [Sentence.evaluate, ← hv]
    exact ⟨rfl, memory_remember _ _⟩

end Evaluation

/-- Reading and evaluating at once comes to the same as reading a statement to its end and
evaluating its greedy tree from left to right then. Whatever the statement is derived from, it has
such a tree; and reading it does nothing to the memory but make places for its names. -/
theorem statement_eq_evaluate {e : Evaluation α} (hready : e.Ready) {t : Sentence α}
    (hc : t.Complete) (h : e.toStatement.upcoming = t.yield) :
    Memory.Reads e.memory e.toStatement.skip.memory ∧
      (∃ t' : Sentence α, t'.Complete ∧ t'.Greedy ∧ t'.yield = t.yield) ∧
      ∀ t' : Sentence α, t'.Complete → t'.Greedy → t'.yield = t.yield →
        e.statement.1 = some (t'.evaluate e.toStatement.skip.memory).1 ∧
          e.statement.2.memory = (t'.evaluate e.toStatement.skip.memory).2 ∧
          e.statement.2.stream = e.toStatement.skip.stream ∧
          e.statement.2.view.session.reports = e.toStatement.skip.view.session.reports ∧
          e.toStatement.reports <+: e.statement.2.reports := by
  refine ⟨e.reads_toStatement.trans (reads_skip _), t.exists_greedy hc, fun t' hc' hg hy => ?_⟩
  -- a greedy tree fits in front of the end, so the productions follow it
  obtain ⟨hvalue, hmemory⟩ := hready.statement_of_fits t' (h.trans hy.symm) (t'.yield_ne_nil hc')
    (t'.fits_of_greedy hc' hg)
  obtain ⟨hstream, hreports⟩ := hready.read_statement
  exact ⟨hvalue, hmemory, hstream, hreports, hready.reports_statement⟩

/-! ### An assignment inside a product -/

namespace EmbeddedAssignment

/-- An assignment as an operand, with operators on both sides. -/
def input (draws : Draws α) : Evaluation α :=
  (Session.new "hoc" .silent draws).start (.ofText "last * x = 2 - last ^ -x\n")

/-- A name as an operand. -/
def operand (index : Nat) : Tree α .factor := .power (.primary (.name index))

/-- What stands behind the last operator of the input. -/
def powerOfLast : Tree α .term := .factor (.power (.raise (.name 16) (.sign true (operand 17))))

/-- The input as a difference; its first operand is a product. -/
def difference : Sentence α :=
  .expression (.sum
    (.term (.product (.factor (operand 16)) .times rfl (.power (.primary
      (.assign .name rfl 17 (.term (.factor (.power (.primary
        (.number (Arithmetic.ofDecimal 2 0)))))))))))
    .minus rfl powerOfLast)

/-- The input as a product; its second operand assigns a difference. -/
def product : Sentence α :=
  .expression (.term (.product (.factor (operand 16)) .times rfl (.power (.primary
    (.assign .name rfl 17 (.sum
      (.term (.factor (.power (.primary (.number (Arithmetic.ofDecimal 2 0))))))
      .minus rfl powerOfLast))))))

/-- What is read are the leaves of the difference. -/
theorem upcoming_input :
    (input (Double.draws 0)).toStatement.upcoming = (difference : Sentence Float).yield := by
  decide +kernel

end EmbeddedAssignment

open EmbeddedAssignment in
/-- A product of powers that is also derived as a difference: the greedy tree is the product. -/
theorem statement_eq_evaluate_product :
    (input (Double.draws 0)).Ready ∧ (difference : Sentence Float).Complete ∧
      (input (Double.draws 0)).toStatement.upcoming = (difference : Sentence Float).yield ∧
      (input (Double.draws 0)).statement.1 =
        some ((product : Sentence Float).evaluate
          (input (Double.draws 0)).toStatement.skip.memory).1 ∧
      (input (Double.draws 0)).statement.2.memory =
        ((product : Sentence Float).evaluate
          (input (Double.draws 0)).toStatement.skip.memory).2 := by
  have hready : (input (Double.draws 0)).Ready := ready_start _ _
  have hc : (difference : Sentence Float).Complete := by
    simp [difference, powerOfLast, operand, Sentence.Complete, Tree.Complete]
  have hc' : (product : Sentence Float).Complete := by
    simp [product, powerOfLast, operand, Sentence.Complete, Tree.Complete]
  have hg : (product : Sentence Float).Greedy := by
    simp [product, powerOfLast, operand, Sentence.Greedy, Tree.Greedy, Tree.endsInAssignment,
      Tree.startsWithAssignment]
  have h := (statement_eq_evaluate hready hc upcoming_input).2.2 product hc' hg rfl
  exact ⟨hready, hc, upcoming_input, h.1, h.2.1⟩

end DeskCalc
