import DeskCalc.Proofs.Syntax.Sentence

/-!
# Every run has a tree

The productions make something of every run of tokens, be it derived by the grammar or not: they
follow a tree that may be incomplete, and leave a rest. This module finds the tree.

* `Tree.Reads` — the run starts with the tokens of a tree of the level that fits, and the level does
  not go on behind it.
* `reads_primary`, `reads_power`, … — one lemma for each production. Where it reads an operand, that
  is on a shorter run.
* `Tree.exists_fits`, `Sentence.exists_fits` — all runs of coherent tokens are read.
-/

namespace DeskCalc

variable {α : Type}

/-- The run consists of coherent tokens that end no statement. -/
def Proper (faces : List (String × Option Nat)) (ts : List (Content α)) : Prop :=
  ∀ c ∈ ts, Coherent faces c ∧ c.1.endsStatement = false

theorem Proper.tail {faces : List (String × Option Nat)} {c : Content α} {ts : List (Content α)}
    (h : Proper faces (c :: ts)) : Proper faces ts :=
  fun c' hc' => h c' (List.mem_cons_of_mem c hc')

theorem Proper.right {faces : List (String × Option Nat)} {ts rest : List (Content α)}
    (h : Proper faces (ts ++ rest)) : Proper faces rest :=
  fun c hc => h c (List.mem_append_right ts hc)

/-- The first token of a run is known by its kind, if that is not the kind of a number or a name. -/
theorem Proper.eq_mark {faces : List (String × Option Nat)} {ts : List (Content α)}
    (h : Proper faces ts) {kind : TokenKind} (hk : nextKind ts = kind)
    (hends : kind.endsStatement = false) (hnumber : kind ≠ .number) (hname : kind.isName = false) :
    ∃ rest, ts = .mark kind :: rest := by
  cases ts with
  | nil =>
    subst hk
    cases hends
  | cons c rest =>
    obtain ⟨hc, -⟩ := h c List.mem_cons_self
    refine ⟨rest, ?_⟩
    subst hk
    -- a token of the table is a number, a name or a mark
    cases hc with
    | number => exact absurd rfl hnumber
    | name => simp [TokenKind.isName_ofArity?] at hname
    | mark => rfl

/-- A closing parenthesis at the front of the rest, if there is one. -/
theorem Proper.exists_closing {faces : List (String × Option Nat)} {ts : List (Content α)}
    (h : Proper faces ts) :
    ∃ closed rest, ts = closing closed ++ rest ∧
      (closed = false → nextKind rest ≠ .rightParen) := by
  by_cases hk : nextKind ts = .rightParen
  · obtain ⟨rest, rfl⟩ := h.eq_mark hk rfl (by decide) rfl
    exact ⟨true, rest, rfl, by simp⟩
  · exact ⟨false, ts, rfl, fun _ => hk⟩

namespace Tree

/-- The run starts with the tokens of a tree that fits and that the level does not go on behind. -/
def Reads (l : Level) (ts : List (Content α)) : Prop :=
  ∃ (t : Tree α l) (rest : List (Content α)), ts = t.yield ++ rest ∧ t.Fits (nextKind rest) ∧
    Evaluation.Stops l (nextKind rest)

variable {faces : List (String × Option Nat)}

/-! ## Primaries -/

/-- Behind a primary nothing of its level goes on. -/
theorem reads_of_primary {ts rest : List (Content α)} (t : Tree α .primary)
    (hts : ts = t.yield ++ rest) (hfits : t.Fits (nextKind rest)) : Reads .primary ts :=
  ⟨t, rest, hts, hfits, trivial⟩

/-- Behind a name: `=` with a right side, or something else. -/
theorem reads_name {kind : TokenKind} (hkind : kind.isName = true) (index : Nat)
    {ts : List (Content α)} (hts : Proper faces ts)
    (ih : ∀ ts', ts'.length < ts.length → Proper faces ts' → Reads (α := α) .expression ts')
    (hother : nextKind ts ≠ .equals → Reads .primary ((kind, .symbol index) :: ts)) :
    Reads .primary ((kind, .symbol index) :: ts) := by
  -- a name in front of an equals sign is assigned; what else it may be is given
  by_cases hk : nextKind ts = .equals
  · obtain ⟨ts', rfl⟩ := hts.eq_mark hk rfl (by decide) rfl
    obtain ⟨right, rest, rfl, hfits, hstop⟩ := ih ts' (by simp) hts.tail
    exact reads_of_primary (.assign kind hkind index right) rfl ⟨hfits, hstop⟩
  · exact hother hk

/-- A parenthesis and an expression, perhaps closed. -/
theorem reads_paren {ts : List (Content α)} (hts : Proper faces ts) (h : Reads .expression ts) :
    Reads (α := α) .primary (.mark .leftParen :: ts) := by
  obtain ⟨inner, rest, rfl, hfits, hstop⟩ := h
  obtain ⟨closed, rest, rfl, hopen⟩ := hts.right.exists_closing
  rw [nextKind_closing] at hfits hstop
  exact reads_of_primary (.paren inner closed) (by simp [yield]) ⟨hfits, hstop, hopen⟩

/-- A function of one argument. -/
theorem reads_unary {index : Nat} {ts : List (Content α)} (hts : Proper faces ts)
    (h : Reads .expression ts) :
    Reads .primary ((.unary, .symbol index) :: .mark .leftParen :: ts) := by
  obtain ⟨x, rest, rfl, hfits, hstop⟩ := h
  obtain ⟨closed, rest, rfl, hopen⟩ := hts.right.exists_closing
  rw [nextKind_closing] at hfits hstop
  exact reads_of_primary (.unary index x closed) (by simp [yield]) ⟨hfits, hstop, hopen⟩

/-- A function of two arguments, of which the second may be missing. -/
theorem reads_binary {index : Nat} {ts : List (Content α)} (hts : Proper faces ts)
    (h : Reads .expression ts)
    (ih : ∀ ts', ts'.length < ts.length → Proper faces ts' → Reads (α := α) .expression ts') :
    Reads .primary ((.binary, .symbol index) :: .mark .leftParen :: ts) := by
  obtain ⟨x, rest, rfl, hx, hstop⟩ := h
  -- without the comma the second argument is missing
  by_cases hk : nextKind rest = .comma
  · obtain ⟨rest, rfl⟩ := hts.right.eq_mark hk rfl (by decide) rfl
    have hlen : rest.length < (x.yield ++ .mark .comma :: rest).length := by simp; omega
    obtain ⟨y, rest, rfl, hy, hstop'⟩ := ih rest hlen hts.right.tail
    obtain ⟨closed, rest, rfl, hopen⟩ := hts.right.tail.right.exists_closing
    rw [nextKind_closing] at hy hstop'
    exact reads_of_primary (.binary index x y closed) (by simp [yield]) ⟨hx, hy, hstop', hopen⟩
  · exact reads_of_primary (.halfBinary index x) (by simp [yield]) ⟨hx, hstop, hk⟩

/-- A function, with as many arguments as it takes if a parenthesis follows. -/
theorem reads_call {arity index : Nat} {ts : List (Content α)} (hts : Proper faces ts)
    (ih : ∀ ts', ts'.length < ts.length → Proper faces ts' → Reads (α := α) .expression ts')
    (hequals : nextKind ts ≠ .equals) :
    Reads .primary ((.ofArity? (some arity), .symbol index) :: ts) := by
  -- without a parenthesis the name of the function stands alone
  by_cases hk : nextKind ts = .leftParen
  · obtain ⟨ts', rfl⟩ := hts.eq_mark hk rfl (by decide) rfl
    match arity with
    | 0 =>
      obtain ⟨closed, rest, rfl, hopen⟩ := hts.tail.exists_closing
      exact reads_of_primary (.nullary index closed) rfl hopen
    | 1 => exact reads_unary hts.tail (ih ts' (by simp) hts.tail)
    | n + 2 =>
      refine reads_binary hts.tail (ih ts' (by simp) hts.tail) fun ts'' hlen => ih ts'' ?_
      simp only [List.length_cons]
      omega
  · have harity : (TokenKind.ofArity? (some arity)).arity?.isSome = true := by
      match arity with
      | 0 => rfl
      | 1 => rfl
      | _ + 2 => rfl
    exact reads_of_primary (.function _ harity index) rfl ⟨hequals, hk⟩

/-- A primary is read off the first token. -/
theorem reads_primary {ts : List (Content α)} (hts : Proper faces ts)
    (ih : ∀ ts', ts'.length < ts.length → Proper faces ts' → Reads (α := α) .expression ts') :
    Reads .primary ts := by
  cases ts with
  | nil => exact reads_of_primary .missing rfl rfl
  | cons c ts =>
    have ih' : ∀ ts', ts'.length < ts.length → Proper faces ts' →
        Reads (α := α) .expression ts' :=
      fun ts' hlen => ih ts' (Nat.lt_succ_of_lt hlen)
    obtain ⟨kind, payload⟩ := c
    obtain ⟨hc, -⟩ := hts _ List.mem_cons_self
    cases hc with
    | number value => exact reads_of_primary (.number value) rfl trivial
    | @name index name arity? =>
      refine reads_name (TokenKind.isName_ofArity? arity?) index hts.tail ih' fun hequals => ?_
      cases arity? with
      | none => exact reads_of_primary (.name index) rfl hequals
      | some arity => exact reads_call hts.tail ih' hequals
    -- all other tokens start no primary, and are left over
    | mark hnumber hname =>
      by_cases hparen : kind = .leftParen
      · subst hparen
        exact reads_paren hts.tail (ih ts (by simp) hts.tail)
      · refine reads_of_primary .missing rfl ?_
        simp [Fits, Evaluation.startsPrimary, hnumber, hname, hparen]

/-! ## Operators -/

/-- A primary, perhaps with an exponent. -/
theorem reads_power {ts : List (Content α)} (hts : Proper faces ts) (h : Reads .primary ts)
    (ih : ∀ ts', ts'.length < ts.length → Proper faces ts' → Reads (α := α) .factor ts') :
    Reads (α := α) .power ts := by
  obtain ⟨base, rest, rfl, hfits, -⟩ := h
  -- behind a caret stands the exponent, a shorter run, to which the induction applies
  by_cases hk : nextKind rest = .caret
  · obtain ⟨rest, rfl⟩ := hts.right.eq_mark hk rfl (by decide) rfl
    have hlen : rest.length < (base.yield ++ .mark .caret :: rest).length := by simp; omega
    obtain ⟨exponent, rest, rfl, hfits', -⟩ := ih rest hlen hts.right.tail
    exact ⟨.raise base exponent, rest, by simp [yield], ⟨hfits, hfits'⟩, trivial⟩
  · exact ⟨.primary base, rest, rfl, ⟨hfits, hk⟩, trivial⟩

/-- Signs, or a power. -/
theorem reads_factor {ts : List (Content α)} (hts : Proper faces ts) (h : Reads .power ts)
    (ih : ∀ ts', ts'.length < ts.length → Proper faces ts' → Reads (α := α) .factor ts') :
    Reads (α := α) .factor ts := by
  -- a sign is followed by a shorter run, to which the induction applies
  by_cases hk : ∃ negative, nextKind ts = signMark negative
  · obtain ⟨negative, hk⟩ := hk
    have hmark : ∃ ts', ts = .mark (signMark negative) :: ts' := by
      cases negative with
      | false => exact hts.eq_mark hk rfl (by decide) rfl
      | true => exact hts.eq_mark hk rfl (by decide) rfl
    obtain ⟨ts', rfl⟩ := hmark
    obtain ⟨operand, rest, rfl, hfits, -⟩ := ih ts' (by simp) hts.tail
    exact ⟨.sign negative operand, rest, rfl, hfits, trivial⟩
  · obtain ⟨p, rest, rfl, hfits, -⟩ := h
    refine ⟨.power p, rest, rfl, ⟨hfits, fun hnil => ?_⟩, trivial⟩
    rw [hnil] at hk
    exact ⟨fun h => hk ⟨true, h⟩, fun h => hk ⟨false, h⟩⟩

/-- The loop over the factors of a product, which starts behind its left part. -/
theorem reads_product (left : Tree α .term) {rest : List (Content α)} (hrest : Proper faces rest)
    (hfits : left.Fits (nextKind rest))
    (ih : ∀ ts', ts'.length < rest.length → Proper faces ts' → Reads (α := α) .factor ts') :
    Reads .term (left.yield ++ rest) := by
  induction hn : rest.length using Nat.strongRecOn generalizing left rest with
  | _ n loop =>
    subst hn
    cases hop : Operator.multiplicative? (nextKind rest) with
    | none => exact ⟨left, rest, rfl, hfits, hop⟩
    | some op =>
      have hmark : nextKind rest = op.mark := by
        generalize nextKind rest = kind at hop
        cases kind <;> cases hop <;> rfl
      have hop' : Operator.multiplicative? op.mark = some op := by rw [← hmark, hop]
      obtain ⟨rest, rfl⟩ := hrest.eq_mark hmark (Operator.endsStatement_of_multiplicative? hop')
        (by cases op <;> simp [Operator.mark]) (by cases op <;> rfl)
      obtain ⟨right, rest, rfl, hright, -⟩ := ih rest (by simp) hrest.tail
      have hlen : rest.length < (.mark op.mark :: (right.yield ++ rest)).length := by
        simp only [List.length_cons, List.length_append]
        omega
      -- the product so far is the left part of the next round
      have := loop rest.length hlen (.product left op hop' right) hrest.tail.right
        ⟨hfits, hright⟩ (fun ts' h => ih ts' (Nat.lt_trans h hlen)) rfl
      simpa [yield] using this

/-- A factor, and what it is multiplied by. -/
theorem reads_term {ts : List (Content α)} (hts : Proper faces ts) (h : Reads .factor ts)
    (ih : ∀ ts', ts'.length < ts.length → Proper faces ts' → Reads (α := α) .factor ts') :
    Reads (α := α) .term ts := by
  obtain ⟨f, rest, rfl, hfits, -⟩ := h
  exact reads_product (.factor f) hts.right hfits fun ts' hlen => ih ts' (by simp; omega)

/-- The loop over the terms of a sum, which starts behind its left part. -/
theorem reads_sum (left : Tree α .expression) {rest : List (Content α)}
    (hrest : Proper faces rest) (hfits : left.Fits (nextKind rest))
    (ih : ∀ ts', ts'.length < rest.length → Proper faces ts' → Reads (α := α) .term ts') :
    Reads .expression (left.yield ++ rest) := by
  induction hn : rest.length using Nat.strongRecOn generalizing left rest with
  | _ n loop =>
    subst hn
    cases hop : Operator.additive? (nextKind rest) with
    | none => exact ⟨left, rest, rfl, hfits, hop⟩
    | some op =>
      have hmark : nextKind rest = op.mark := by
        generalize nextKind rest = kind at hop
        cases kind <;> cases hop <;> rfl
      have hop' : Operator.additive? op.mark = some op := by rw [← hmark, hop]
      obtain ⟨rest, rfl⟩ := hrest.eq_mark hmark (Operator.endsStatement_of_additive? hop')
        (by cases op <;> simp [Operator.mark]) (by cases op <;> rfl)
      obtain ⟨right, rest, rfl, hright, hstop⟩ := ih rest (by simp) hrest.tail
      have hlen : rest.length < (.mark op.mark :: (right.yield ++ rest)).length := by
        simp only [List.length_cons, List.length_append]
        omega
      -- the sum so far is the left part of the next round
      have := loop rest.length hlen (.sum left op hop' right) hrest.tail.right
        ⟨hfits, hright, hstop⟩ (fun ts' h => ih ts' (Nat.lt_trans h hlen)) rfl
      simpa [yield] using this

/-- A term, and what is added to it. -/
theorem reads_expression {ts : List (Content α)} (hts : Proper faces ts) (h : Reads .term ts)
    (ih : ∀ ts', ts'.length < ts.length → Proper faces ts' → Reads (α := α) .term ts') :
    Reads (α := α) .expression ts := by
  obtain ⟨t, rest, rfl, hfits, hstop⟩ := h
  exact reads_sum (.term t) hts.right ⟨hfits, hstop⟩ fun ts' hlen => ih ts' (by simp; omega)

/-! ## Runs -/

/-- Every level reads every run. -/
theorem exists_fits (l : Level) {ts : List (Content α)} (hts : Proper faces ts) : Reads l ts := by
  induction hn : ts.length using Nat.strongRecOn generalizing l ts with
  | _ n ih =>
    have shorter (l : Level) (ts' : List (Content α)) (hlen : ts'.length < ts.length)
        (hts' : Proper faces ts') : Reads l ts' := ih ts'.length (hn ▸ hlen) l hts' rfl
    -- the levels from the tightest on; each one needs the one before it on the same run
    have hprimary := reads_primary hts (shorter .expression)
    have hpower := reads_power hts hprimary (shorter .factor)
    have hfactor := reads_factor hts hpower (shorter .factor)
    have hterm := reads_term hts hfactor (shorter .factor)
    cases l with
    | expression => exact reads_expression hts hterm (shorter .term)
    | term => exact hterm
    | factor => exact hfactor
    | power => exact hpower
    | primary => exact hprimary

end Tree

/-- Every run starts with a sentence that fits. -/
theorem Sentence.exists_fits {faces : List (String × Option Nat)} {ts : List (Content α)}
    (hts : Proper faces ts) :
    ∃ (t : Sentence α) (rest : List (Content α)), ts = t.yield ++ rest ∧
      t.Fits (nextKind rest) := by
  -- a run that starts like an assignment is one, whatever its right side is
  cases hstart : startsAssignment ts with
  | false =>
    obtain ⟨t, rest, rfl, hfits, hstop⟩ := Tree.exists_fits .expression hts
    refine ⟨.expression t, rest, rfl, hfits, hstop, ?_⟩
    by_contra h
    simp [(t.startsAssignment_yield hfits).2 (by simpa using h)] at hstart
  | true =>
    match ts, hstart with
    | c :: c' :: ts, hstart =>
      simp only [startsAssignment, Bool.and_eq_true, beq_iff_eq] at hstart
      obtain ⟨ts', hts'⟩ := hts.tail.eq_mark hstart.2 rfl (by decide) rfl
      obtain ⟨rfl, rfl⟩ := List.cons.inj hts'
      obtain ⟨right, rest, rfl, hfits, hstop⟩ := Tree.exists_fits .expression hts.tail.tail
      obtain ⟨kind, payload⟩ := c
      obtain ⟨hc, -⟩ := hts _ List.mem_cons_self
      cases hc with
      | number => cases hstart.1
      | name => exact ⟨.assignment _ hstart.1 _ right, rest, rfl, hfits, hstop⟩
      | mark _ hname => simp [hname] at hstart

end DeskCalc
