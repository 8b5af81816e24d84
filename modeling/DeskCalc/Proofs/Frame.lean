import DeskCalc.Proofs.Ledger
import DeskCalc.Proofs.Quiet
import DeskCalc.Proofs.Script

/-!
# The frame of a statement

What a statement does to the table can be told from its tokens, whether or not they make sense: all
names get a place, also those that are only skipped, and nothing changes its binding but a name with
`=` behind it and the last result.

* `Targets` — a run of tokens has `=` behind the name at a place.
* `SymbolTable.Touched` — only some places were assigned. `Tree.touched_evaluate` — evaluating a
  tree touches no place but the targets of its yield, and so does the body of a statement
  (`Settled.touched_body`).
* `Evaluation.Framed` — the frame of a statement.
* `Evaluation.Reachable.framed` — every statement has it.
-/

namespace DeskCalc

variable {α : Type}

/-! ## Targets -/

/-- Somewhere in the run, `=` stands behind the name at the place. -/
def Targets (cs : List (Content α)) (index : Nat) : Prop :=
  ∃ kind : TokenKind, [(kind, .symbol index), Content.mark .equals] <:+: cs

theorem Targets.mono {cs cs' : List (Content α)} {index : Nat} (h : Targets cs index)
    (hpart : cs <:+: cs') : Targets cs' index := by
  obtain ⟨kind, hkind⟩ := h
  exact ⟨kind, hkind.trans hpart⟩

namespace SymbolTable

/-- Nothing happened but that some of the places were assigned. -/
structure Touched (P : Nat → Prop) (t t' : SymbolTable α) : Prop where
  faces : t'.faces = t.faces
  get : ∀ index, ¬ P index → t'.get index = t.get index

variable {P Q : Nat → Prop} {t t' t'' : SymbolTable α}

theorem Touched.of_eq (h : t' = t) : Touched P t t' := by
  subst h
  exact ⟨rfl, fun _ _ => rfl⟩

/-- One stretch of evaluating behind another: what neither assigns is not assigned. -/
theorem Touched.trans (h : Touched P t t') (h' : Touched P t' t'') : Touched P t t'' :=
  ⟨h'.faces.trans h.faces, fun index hindex => (h'.get index hindex).trans (h.get index hindex)⟩

theorem Touched.mono (h : Touched P t t') (hPQ : ∀ index, P index → Q index) : Touched Q t t' :=
  ⟨h.faces, fun index hindex => h.get index fun hP => hindex (hPQ index hP)⟩

/-- A name keeps its binding unless its place was assigned. -/
theorem Touched.binding (h : Touched P t t') {name : String}
    (hname : ∀ index, t.indexOf? name = some index → ¬ P index) :
    t'.binding name = t.binding name := by
  have hplace : t'.indexOf? name = t.indexOf? name := by
    rw [indexOf?_eq_findIdx?, indexOf?_eq_findIdx?, h.faces]
  -- a name without a place has the same binding in all tables of these faces
  cases hi : t.indexOf? name with
  | none => rw [binding_of_indexOf?_none hi, binding_of_indexOf?_none (hplace.trans hi)]
  | some index =>
    have hget := h.get index (hname index hi)
    rw [get_of_indexOf? hi, get_of_indexOf? (hplace.trans hi)] at hget
    exact Except.ok.inj hget

end SymbolTable

open SymbolTable

/-! ## Evaluating -/

variable [Arithmetic α]

namespace Memory

/-- Calling a function draws a random number at most, and assigns nothing. -/
theorem table_apply (index : Nat) (arguments : List α) (m : Memory α) :
    (m.apply index arguments).2.table = m.table := by
  unfold apply
  split
  · rfl
  · split
    · exact (keeps_checked _ _).table
    · rfl

/-- Nor does a call whose parenthesis is not closed. -/
theorem table_finishCall (closed : Bool) (index : Nat) (arguments : List α) (m : Memory α) :
    (m.finishCall closed index arguments).2.table = m.table := by
  cases closed with
  | true => exact table_apply index arguments m
  | false => rfl

omit [Arithmetic α] in
theorem table_foldl_intern (names : List String) (m : Memory α) :
    (names.foldl intern m).table = names.foldl (fun t name => (t.intern name).2) m.table := by
  induction names generalizing m with
  | nil => rfl
  | cons name names ih => exact ih (m.intern name)

/-- An assignment touches its own place, if it touches any. -/
theorem touched_assign {P : Nat → Prop} {index : Nat} (hP : P index) (value : α) (m : Memory α) :
    Touched P m.table (m.assign index value).2.table := by
  unfold assign
  -- a refused assignment touches nothing
  cases ha : m.table.assign index value with
  | error error => exact .of_eq rfl
  | ok t =>
    refine ⟨faces_assign ha, fun i hi => ?_⟩
    have hne : i ≠ index := by
      rintro rfl
      exact hi hP
    exact (get_assign ha i).trans (if_neg hne)

end Memory

open Memory

/-- Evaluating a tree assigns no places but those of the names with `=` behind them. -/
theorem Tree.touched_evaluate {l : Level} (t : Tree α l) {cs : List (Content α)}
    (h : t.yield <:+: cs) (m : Memory α) :
    Touched (Targets cs) m.table (t.evaluate m).2.table := by
  induction t generalizing m with
  | term t ih => exact ih h m
  | factor f ih => exact ih h m
  | power p ih => exact ih h m
  | primary p ih => exact ih h m
  -- both operands stand in the run, with the operator between them
  | sum left op hop right ihl ihr =>
    have hl : left.yield <:+: yield (.sum left op hop right) :=
      ⟨[], .mark op.mark :: right.yield, rfl⟩
    have hr : right.yield <:+: yield (.sum left op hop right) :=
      ⟨left.yield ++ [.mark op.mark], [], by simp [yield]⟩
    exact ((ihl (hl.trans h) m).trans (ihr (hr.trans h) _)).trans
      (.of_eq (keeps_operate op _ _ _).table)
  | product left op hop right ihl ihr =>
    have hl : left.yield <:+: yield (.product left op hop right) :=
      ⟨[], .mark op.mark :: right.yield, rfl⟩
    have hr : right.yield <:+: yield (.product left op hop right) :=
      ⟨left.yield ++ [.mark op.mark], [], by simp [yield]⟩
    exact ((ihl (hl.trans h) m).trans (ihr (hr.trans h) _)).trans
      (.of_eq (keeps_operate op _ _ _).table)
  | raise base exponent ihb ihx =>
    have hb : base.yield <:+: yield (.raise base exponent) :=
      ⟨[], .mark .caret :: exponent.yield, rfl⟩
    have hx : exponent.yield <:+: yield (.raise base exponent) :=
      ⟨base.yield ++ [.mark .caret], [], by simp [yield]⟩
    exact ((ihb (hb.trans h) m).trans (ihx (hx.trans h) _)).trans (.of_eq (keeps_checked _ _).table)
  | sign negative operand ih => exact ih ((List.suffix_cons _ _).isInfix.trans h) m
  | number value => exact .of_eq rfl
  | name index => exact .of_eq (keeps_read index m).table
  -- the tree that assigns: its first two tokens make the place a target
  | assign kind hkind index right ih =>
    have hr : right.yield <:+: yield (.assign kind hkind index right) :=
      ⟨[(kind, .symbol index), .mark .equals], [], by simp [yield]⟩
    have htarget : [(kind, .symbol index), Content.mark .equals] <:+:
        yield (.assign kind hkind index right) := ⟨[], right.yield, rfl⟩
    exact (ih (hr.trans h) m).trans (touched_assign ⟨kind, htarget.trans h⟩ _ _)
  | paren inner closed ih =>
    have hi : inner.yield <:+: yield (.paren inner closed) :=
      ⟨[.mark .leftParen], closing closed, by simp [yield]⟩
    refine (ih (hi.trans h) m).trans (.of_eq ?_)
    cases closed <;> rfl
  | nullary index closed => exact .of_eq (table_finishCall closed index [] m)
  | unary index x closed ih =>
    have hx : x.yield <:+: yield (.unary index x closed) :=
      ⟨[(.unary, .symbol index), .mark .leftParen], closing closed, by simp [yield]⟩
    exact (ih (hx.trans h) m).trans (.of_eq (table_finishCall closed index _ _))
  | binary index x y closed ihx ihy =>
    have hx : x.yield <:+: yield (.binary index x y closed) :=
      ⟨[(.binary, .symbol index), .mark .leftParen],
        .mark .comma :: (y.yield ++ closing closed), by simp [yield]⟩
    have hy : y.yield <:+: yield (.binary index x y closed) :=
      ⟨(.binary, .symbol index) :: .mark .leftParen :: (x.yield ++ [.mark .comma]),
        closing closed, by simp [yield]⟩
    exact ((ihx (hx.trans h) m).trans (ihy (hy.trans h) _)).trans
      (.of_eq (table_finishCall closed index _ _))
  | halfBinary index x ih =>
    have hx : x.yield <:+: yield (.halfBinary index x) :=
      ⟨[(.binary, .symbol index), .mark .leftParen], [], by simp [yield]⟩
    exact (ih (hx.trans h) m).trans (.of_eq rfl)
  | function kind hkind index => exact .of_eq rfl
  | missing => exact .of_eq rfl

namespace Evaluation

variable {e : Evaluation α}

/-- The body of a statement assigns no places but those of the names with `=` behind them. When it
is done, the rest of the statement has been read in front of it or is going to be read behind it. -/
theorem Settled.touched_body (hs : e.Settled) :
    Touched (Targets e.upcoming) e.skip.session.table e.body.2.skip.session.table := by
  obtain ⟨t, rest, hup, hfits⟩ := Sentence.exists_fits hs.proper_upcoming
  have hyield : t.tree.yield <:+: e.upcoming := by
    rw [t.yield_tree, hup]
    exact (List.prefix_append _ _).isInfix
  -- the body does to the table what its tree does, and a tree assigns names of its own yield
  have hend : e.body.2.skip.memory = (t.tree.evaluate e.skip.memory).2 := by
    rw [t.body_eq_follow hs hup hfits]
    exact congrArg Prod.snd (t.atEnd_follow hs hup hfits)
  have htouched := t.tree.touched_evaluate hyield e.skip.memory
  rw [← hend] at htouched
  exact htouched

/-- The end of a statement does to the table what skipping does. -/
theorem Settled.table_conclude_eq (hs : e.Settled) (count : Nat) :
    (e.conclude count).session.table = e.skip.session.table := by
  unfold conclude
  split
  · next hk => rw [skip_of_endsStatement hk]
  · split
    · -- the report changes neither the view nor the table, so the same names are met
      obtain ⟨names, hnames⟩ := hs.memory_skip_eq_foldl
      have hreport := hnames (e.report (.unexpectedToken e.current.kind.text)) (view_fail _ e)
      have hskip := congrArg Memory.table (hnames e rfl)
      have hskip' := congrArg Memory.table hreport
      rw [table_foldl_intern] at hskip hskip'
      exact hskip'.trans hskip.symm
    · rfl

end Evaluation

/-! ## Names -/

namespace SymbolTable

variable {t : SymbolTable α}

omit [Arithmetic α] in
theorem names_eq_faces (t : SymbolTable α) : t.names = t.faces.map Prod.fst := by
  simp [names, Ledger.names, toList, faces]

omit [Arithmetic α] in
/-- A name has a place just if it is among the names. -/
theorem indexOf?_isSome_iff {name : String} :
    (t.indexOf? name).isSome = true ↔ name ∈ t.names := by
  rw [indexOf?_toList]
  split <;> simp [*]

/-- No name stands in a table twice. -/
theorem Reachable.nodup (h : t.Reachable) : t.names.Nodup := by
  -- an empty table and the standard one to start with, and no step gives a name a second place
  induction h with
  | empty => exact Origin.nodup .empty
  | standard => exact Origin.nodup .standard
  | @intern t name _ ih =>
    rw [names, intern_toList]
    exact Ledger.nodup_change ih (.intern name)
  | assign _ ha ih => rwa [names_eq_faces, faces_assign ha, ← names_eq_faces]

omit [Arithmetic α] in
/-- Interning names adds those that are new, each of them once. -/
theorem names_foldl_intern (h : t.names.Nodup) (names : List String) :
    (names.foldl (fun t name => (t.intern name).2) t).names = (t.names ++ names).eraseDups := by
  -- interning them all is a sequence of operations, of which the list of entries says the names
  have hops : names.foldl (fun t name => (t.intern name).2) t = t.after (names.map .intern) := by
    rw [after, List.foldl_map]
    rfl
  have hinterned :
      (names.map Operation.intern).filterMap (Operation.interned? (α := α)) = names := by
    rw [List.filterMap_map]
    exact List.filterMap_some
  rw [hops, SymbolTable.names, toList_after]
  exact (Ledger.names_after h _).trans (by rw [hinterned]; rfl)

end SymbolTable

/-! ## Targets by lexemes -/

/-- In the run, `=` stands behind the name. -/
def AssignedIn (name : String) (run : List (Lexeme × Nat)) : Prop :=
  [Lexeme.name name.toList, .mark .equals] <:+: run.map Prod.fst

namespace Lexeme

variable {t : SymbolTable α} {l : Lexeme} {line : Nat}

/-- Only names have tokens with places. -/
theorem eq_name_of_content {kind : TokenKind} {index : Nat}
    (h : (l.token t line).content = (kind, .symbol index)) :
    ∃ name : String, l = .name name.toList ∧ (t.indexOf? name).getD t.size = index := by
  cases l with
  | newline => cases h
  | mark kind => cases h
  | stray c => cases h
  | number n => cases hv : n.value? <;> simp [token, hv, Token.content, Token.bare] at h
  | name chars =>
    simp only [token, Token.content, Prod.mk.injEq, Payload.symbol.injEq] at h
    exact ⟨String.ofList chars, by rw [String.toList_ofList], h.2⟩

/-- The sign of an assignment is its own lexeme. -/
theorem eq_equals_of_kind (h : (l.token t line).kind = .equals) : l = .mark .equals := by
  cases l with
  | newline => cases h
  | mark kind => exact congrArg Lexeme.mark h
  | stray c => cases h
  | number n => cases hv : n.value? <;> simp [token, hv, Token.bare] at h
  | name chars => exact absurd h (ne_of_isName (TokenKind.isName_ofArity? _) rfl)

end Lexeme

/-- Where the names of a run have their places, its targets are the names with `=` behind them. -/
theorem assignedIn_of_targets {t : SymbolTable α} {run : List (Lexeme × Nat)}
    (hplaced : ∀ l ∈ run, ∀ name ∈ l.1.name?, (t.indexOf? name).isSome = true)
    {name : String} {index : Nat} (hindex : t.indexOf? name = some index)
    (h : Targets (run.map fun l => (l.1.token t l.2).content) index) : AssignedIn name run := by
  obtain ⟨kind, front, back, happend⟩ := h
  -- the two tokens of the target stand side by side, so their lexemes do
  obtain ⟨run₁, run₂, rfl, h₁, -⟩ := List.map_eq_append_iff.1 happend.symm
  obtain ⟨run₀, run₃, rfl, -, h₃⟩ := List.map_eq_append_iff.1 h₁
  obtain ⟨l, run₄, rfl, hl, h₄⟩ := List.map_eq_cons_iff.1 h₃
  obtain ⟨l', run₅, rfl, hl', h₅⟩ := List.map_eq_cons_iff.1 h₄
  rw [List.map_eq_nil_iff] at h₅
  subst h₅
  obtain ⟨other, hother, hplace⟩ := Lexeme.eq_name_of_content hl
  -- two names do not stand at one place
  have hsome := hplaced l (by simp) other (by rw [hother]; simp [Lexeme.name?])
  obtain ⟨i, hi⟩ := Option.isSome_iff_exists.1 hsome
  rw [hi, Option.getD_some] at hplace
  subst hplace
  have hsame := (SymbolTable.entry_of_indexOf? hi).symm.trans (SymbolTable.entry_of_indexOf? hindex)
  have hname : other = name := congrArg SymbolEntry.name (Except.ok.inj hsame)
  refine ⟨run₀.map Prod.fst, run₂.map Prod.fst, ?_⟩
  rw [List.map_append, List.map_append, List.map_cons, List.map_cons, List.map_nil, hother, hname,
    Lexeme.eq_equals_of_kind (congrArg Prod.fst hl')]

/-! ## What becomes of bindings -/

namespace Binding.Becomes

variable {b b' : Binding α}

omit [Arithmetic α] in
/-- What cannot be assigned in the end was never assigned. -/
theorem eq_of_immutable (h : b.Becomes b') (hmut : b'.isMutable = false) : b' = b := by
  cases h with
  | same => rfl
  | assigned => cases hmut

omit [Arithmetic α] in
/-- What can be assigned in the end could always be assigned. -/
theorem isMutable_of_isMutable (h : b.Becomes b') (hmut : b'.isMutable = true) :
    b.isMutable = true := by
  cases h with
  | same => exact hmut
  | assigned _ hmut' => exact hmut'

end Binding.Becomes

namespace Evaluation

variable {e e' : Evaluation α}

/-- A production changes the binding of a name with a place only where that is allowed. -/
theorem Reaches.becomes (h : Reaches e e') {name : String} {index : Nat}
    (hindex : e.session.table.indexOf? name = some index) :
    (e.session.table.binding name).Becomes (e'.session.table.binding name) := by
  -- what happens to the table are operations, behind which the name has the same place
  obtain ⟨ops, hops⟩ := h.leads.exists_after
  have hplace := SymbolTable.indexOf?_of_prefix hindex h.faces
  obtain ⟨binding, hget, hbecomes⟩ := (SymbolTable.precedes_after e.session.table ops).binding _ _
    (SymbolTable.get_of_indexOf? hindex)
  rw [← hops, SymbolTable.get_of_indexOf? hplace] at hget
  rwa [Except.ok.inj hget]

/-! ## Assignments -/

/-- What an assignment of a value to a name does: the name is bound to it, unless it has to keep its
binding; then that is reported, and the value is not a number. -/
inductive Assigns (e : Evaluation α) (name : String) (value : α) : Prop
  | bound : (e.session.table.binding name).isMutable = true →
    e.statement.2.session.table.binding name = .assigned value → Assigns e name value
  | refused : (e.session.table.binding name).isMutable = false → value = Arithmetic.nan →
    e.statement.2.session.table.binding name = e.session.table.binding name →
    (∃ r ∈ e.toStatement.since e.statement.2, r.problem = .symbol (.immutable name)) →
    Assigns e name value

/-- The body of an assignment, by its right side. -/
theorem Settled.exists_right_side (hs : e.Settled) {value : α}
    (h : e.body.1 = .assignment value) :
    ∃ (index : Nat) (r : α × Evaluation α), e.current.symbol? = some index ∧
      e.current.kind.isName = true ∧ e.advance.current.kind = .equals ∧ Reaches e r.2 ∧
      e.body = (.assignment (r.2.assign index r.1).1, (r.2.assign index r.1).2) := by
  -- a statement that is an assignment starts with a name and the sign
  have hstart : startsAssignment e.upcoming = true := by
    by_contra hstart
    rw [body_of_expression hs (by simpa using hstart)] at h
    cases h
  obtain ⟨hname, hequals⟩ := e.startsAssignment_upcoming.1 hstart
  obtain ⟨index, hsymbol, -⟩ := hs.exists_symbol hname
  have hk : e.current.kind.endsStatement = false :=
    TokenKind.endsStatement_eq_false_of_isName hname
  have hreach := ((reaches_advance hk).trans (reaches_advance (by rw [hequals]; rfl))).trans
    (reaches_expression e.advance.advance)
  exact ⟨index, e.advance.advance.expression, hsymbol, hname, hequals, hreach,
    body_of_assignment hstart hsymbol⟩

/-- A run that starts with a name and `=` is made of the lexemes of these. -/
theorem Scans.run_eq {gap run : List (Lexeme × Nat)} {stop : Option (Lexeme × Nat)}
    (h : e.Scans gap run stop) {index : Nat} (hsymbol : e.toStatement.current.symbol? = some index)
    (hname : e.toStatement.current.kind.isName = true)
    (hequals : e.toStatement.advance.current.kind = .equals) :
    ∃ name line line' more, run = (.name name.toList, line) :: (.mark .equals, line') :: more ∧
      e.toStatement.session.table.indexOf? name = some index := by
  have hup := h.upcoming
  rw [upcoming_of_not_endsStatement (TokenKind.endsStatement_eq_false_of_isName hname),
    upcoming_of_not_endsStatement (by rw [hequals]; rfl)] at hup
  obtain ⟨⟨l, line⟩, run', rfl, hl, hrun'⟩ := List.map_eq_cons_iff.1 hup.symm
  obtain ⟨⟨l', line'⟩, more, rfl, hl', -⟩ := List.map_eq_cons_iff.1 hrun'
  have hfaces := h.faces (l, line) rfl
  -- the place that the token brings along is that of the name
  have hcontent : (l.token e.toStatement.session.table line).content =
      (e.toStatement.current.kind, .symbol index) := by
    have hcurrent : e.toStatement.current = l.token e.toStatement.session.table line :=
      hfaces.current
    rw [← hcurrent]
    unfold Token.symbol? at hsymbol
    split at hsymbol
    · next hpayload =>
      rw [Option.some.inj hsymbol] at hpayload
      rw [Token.content, hpayload]
    · cases hsymbol
  obtain ⟨name, rfl, hplace⟩ := Lexeme.eq_name_of_content hcontent
  have hl' : l' = .mark .equals :=
    Lexeme.eq_equals_of_kind ((congrArg Prod.fst hl').trans hequals)
  subst hl'
  have hsome := hfaces.placed name (by simp [Lexeme.name?])
  obtain ⟨i, hi⟩ := Option.isSome_iff_exists.1 hsome
  rw [hi, Option.getD_some] at hplace
  exact ⟨name, line, line', more, rfl, hplace ▸ hi⟩

/-- The tables behind the parts of a statement: the body, what is skipped, and the last result. -/
theorem Ready.table_statement (h : e.Ready) (hne : e.toStatement.current.kind ≠ .finish) :
    e.statement.2 = (e.toStatement.body.2.conclude
        e.toStatement.session.errorCount).rememberStatement e.toStatement.body.1 ∧
      (e.toStatement.body.2.conclude e.toStatement.session.errorCount).session.table =
        e.toStatement.body.2.skip.session.table := by
  have hbody := h.settled_toStatement.reaches_body.settled h.settled_toStatement
  rw [statement_of_ne_finish hne]
  exact ⟨rfl, hbody.table_conclude_eq _⟩

/-- Behind an assignment, names are bound as its body leaves them: the rest of the statement is only
skipped. -/
theorem Ready.binding_of_assignment (h : e.Ready) {value : α}
    (hs : e.statement.1 = some (.assignment value)) (name : String) :
    e.statement.2.session.table.binding name =
      e.toStatement.body.2.session.table.binding name := by
  -- behind the body of an assignment the table is only read into
  obtain ⟨hne, hbody⟩ := eq_body_of_statement hs
  obtain ⟨hstatement, htable⟩ := h.table_statement hne
  rw [hstatement, ← hbody]
  exact (congrArg (SymbolTable.binding · name) htable).trans
    (binding_reads (reads_skip e.toStatement.body.2) name)

omit [Arithmetic α] in
/-- A report that was made on the way is among those that were made. -/
theorem mem_since_of_report {e'' : Evaluation α} {problem : Problem} (h : e.reports <+: e'.reports)
    (h' : (e'.report problem).reports <+: e''.reports) :
    ⟨e'.session.log.line, problem⟩ ∈ e.since e'' := by
  obtain ⟨new, hnew⟩ := h
  obtain ⟨more, hmore⟩ := h'
  rw [reports_report] at hmore
  rw [since, ← hmore, ← hnew]
  simp

/-- What the body of a statement reported is not taken back. -/
theorem Ready.reports_body_prefix (h : e.Ready) (hne : e.toStatement.current.kind ≠ .finish) :
    e.toStatement.body.2.reports <+: e.statement.2.reports := by
  rw [(h.table_statement hne).1]
  exact (extends_conclude _ _).isPrefix.trans (extends_rememberStatement _ _).isPrefix

/-- An assignment assigns the name that it starts with. -/
theorem Ready.assigns (h : e.Ready) {value : α} (hs : e.statement.1 = some (.assignment value))
    {gap run : List (Lexeme × Nat)} {stop : Option (Lexeme × Nat)} (hscans : e.Scans gap run stop) :
    ∃ name line line' more, run = (.name name.toList, line) :: (.mark .equals, line') :: more ∧
      e.Assigns name value := by
  obtain ⟨hne, hbody⟩ := eq_body_of_statement hs
  have hsettled := h.settled_toStatement
  obtain ⟨index, ⟨value', e'⟩, hsymbol, hname, hequals, hreach, hbody'⟩ :=
    hsettled.exists_right_side hbody.symm
  obtain ⟨name, line, line', more, hrun, hindex⟩ := hscans.run_eq hsymbol hname hequals
  refine ⟨name, line, line', more, hrun, ?_⟩
  have hplace := SymbolTable.indexOf?_of_prefix hindex hreach.faces
  have hbecomes := hreach.becomes hindex
  rw [show e.toStatement.session.table.binding name = e.session.table.binding name from
    binding_reads e.reads_toStatement name] at hbecomes
  have hafter := h.binding_of_assignment hs name
  rw [hbody'] at hbody hafter
  -- the place can be assigned or it cannot, and that is known from before the statement
  rcases SymbolTable.assign_of_indexOf? hplace value' with ⟨hmut, t, ht⟩ | ⟨hmut, herror⟩
  · have hassign : e'.assign index value' =
        (value', { e' with session := { e'.session with table := t } }) := by
      simp [assign, Session.assign, ht, Except.map]
    simp only [hassign] at hbody hafter
    rw [SymbolTable.binding_assign hplace ht, if_pos rfl] at hafter
    cases hbody
    exact .bound (hbecomes.isMutable_of_isMutable hmut) hafter
  · have hassign : e'.assign index value' = e'.fail (.symbol (.immutable name)) := by
      simp [assign, Session.assign, herror, Except.map]
    simp only [hassign] at hbody hafter
    -- the right side has not bound the name either, since it must not be bound
    have hsame := hbecomes.eq_of_immutable hmut
    cases hbody
    have hprefix := h.reports_body_prefix hne
    rw [hbody', hassign] at hprefix
    exact .refused (hsame ▸ hmut) rfl (hafter.trans hsame)
      ⟨_, mem_since_of_report hreach.extends_reports.isPrefix hprefix, rfl⟩

/-! ## The frame -/

end Evaluation

/-- The name that is bound by the statement as a whole, whatever its tokens are. -/
def Statement.remembers : Statement α → List String
  | .expression _ => [SymbolTable.last]
  | .assignment _ => []

namespace Evaluation

/-- What a statement with the given run does to the table. -/
structure Framed (e : Evaluation α) (run : List (Lexeme × Nat)) (statement : Statement α) :
    Prop where
  /-- The new names of the run come behind the old ones in the order in which they are first met,
  and the last result comes behind them. -/
  names : e.statement.2.session.table.names = e.session.table.names ++
    ((run.filterMap (fun l => l.1.name?) ++ statement.remembers).removeAll
      e.session.table.names).eraseDups
  /-- So there is one binding for each name. -/
  nodup : e.statement.2.session.table.names.Nodup
  /-- Names without `=` behind them keep their bindings. -/
  binding : ∀ name, ¬ AssignedIn name run → name ∉ statement.remembers →
    e.statement.2.session.table.binding name = e.session.table.binding name
  new : ∀ name, name ∉ e.session.table.names → ¬ AssignedIn name run →
    name ∉ statement.remembers → e.statement.2.session.table.binding name = .undefined
  expression : ∀ value, statement = .expression value →
    e.statement.2.session.table.binding SymbolTable.last = .assigned value
  assignment : ∀ value, statement = .assignment value →
    ∃ name line line' more, run = (.name name.toList, line) :: (.mark .equals, line') :: more ∧
      e.Assigns name value

variable {e : Evaluation α} {gap run : List (Lexeme × Nat)} {stop : Option (Lexeme × Nat)}

/-- The names of a run have their places when it has been read. -/
theorem Scans.placed (h : e.Scans gap run stop) (hnodup : e.session.table.names.Nodup) :
    ∀ l ∈ run, ∀ name ∈ l.1.name?,
      (e.toStatement.skip.session.table.indexOf? name).isSome = true := by
  intro l hl name hname
  rw [h.table, SymbolTable.indexOf?_isSome_iff, SymbolTable.withNames,
    SymbolTable.names_foldl_intern hnodup, List.mem_eraseDups]
  exact List.mem_append_right _ (List.mem_filterMap.2 ⟨l, hl, hname⟩)

/-- The body of a statement keeps the bindings of names without `=` behind them. -/
theorem Scans.binding_body (h : e.Scans gap run stop) (hready : e.Ready)
    (hnodup : e.session.table.names.Nodup) {name : String} (hname : ¬ AssignedIn name run) :
    e.toStatement.body.2.skip.session.table.binding name = e.session.table.binding name := by
  have htouched := hready.settled_toStatement.touched_body
  rw [h.upcoming] at htouched
  have hkeeps := htouched.binding fun index hindex htarget =>
    hname (assignedIn_of_targets (h.placed hnodup) hindex htarget)
  exact hkeeps.trans (binding_reads (e.reads_toStatement.trans (reads_skip _)) name)

/-- The last result is interned if there is one to be kept, and its value shows in no face. -/
theorem faces_rememberStatement (statement : Statement α) (e : Evaluation α) :
    (e.rememberStatement statement).session.table.faces =
      (statement.remembers.foldl (fun t name => (t.intern name).2) e.session.table).faces := by
  cases statement with
  | assignment value => rfl
  | expression value =>
    exact congrArg (fun v => v.session.faces)
      (view_assign (e.session.intern SymbolTable.last).1 value
        { e with session := (e.session.intern SymbolTable.last).2 })

/-- The names behind a statement. -/
theorem Scans.names_statement (h : e.Scans gap run stop) (hready : e.Ready)
    (htable : e.session.table.Reachable) {statement : Statement α}
    (hs : e.statement.1 = some statement) :
    e.statement.2.session.table.names = (e.session.table.names ++
      (run.filterMap (fun l => l.1.name?) ++ statement.remembers)).eraseDups := by
  obtain ⟨hne, hbody⟩ := eq_body_of_statement hs
  obtain ⟨hstatement, hconclude⟩ := hready.table_statement hne
  have hnodup : e.toStatement.skip.session.table.names.Nodup :=
    (table_reads (e.reads_toStatement.trans (reads_skip _)) htable).nodup
  -- evaluating changes no name, so those in front of the last result are those that were read
  have hnames : e.toStatement.body.2.skip.session.table.names =
      e.toStatement.skip.session.table.names := by
    rw [SymbolTable.names_eq_faces, hready.settled_toStatement.touched_body.faces,
      ← SymbolTable.names_eq_faces]
  rw [SymbolTable.names_eq_faces, hstatement, faces_rememberStatement, hconclude, ← hbody,
    ← SymbolTable.names_eq_faces, SymbolTable.names_foldl_intern (hnames ▸ hnodup), hnames,
    ← SymbolTable.names_foldl_intern hnodup, h.table, SymbolTable.withNames, ← List.foldl_append,
    SymbolTable.names_foldl_intern htable.nodup]

/-- Every statement has its frame, whether or not its tokens make sense. -/
theorem Reachable.framed (h : e.Reachable) {statement : Statement α}
    (hs : e.statement.1 = some statement) :
    ∃ gap run stop, e.Scans gap run stop ∧ e.Framed run statement := by
  obtain ⟨hready, -, htable⟩ := h.ready_intact
  obtain ⟨hne, hbody⟩ := eq_body_of_statement hs
  obtain ⟨gap, run, stop, hscans⟩ := hready.exists_scans hne
  have hnodup := htable.nodup
  obtain ⟨hstatement, hconclude⟩ := hready.table_statement hne
  have hconcluded := table_conclude e.toStatement.session.errorCount
    (hready.settled_toStatement.reaches_body.table (table_reads e.reads_toStatement htable))
  -- two parts of the frame need it: the names that were there, and the new ones
  have hbinding : ∀ name, ¬ AssignedIn name run → name ∉ statement.remembers →
      e.statement.2.session.table.binding name = e.session.table.binding name := by
    intro name hname hlast
    rw [← hscans.binding_body hready hnodup hname, ← hconclude, hstatement, ← hbody]
    cases statement with
    | assignment value => rfl
    | expression value =>
      obtain ⟨t, hremember, ht⟩ := table_remember hconcluded value
      rw [rememberStatement, hremember]
      exact (ht name).trans (if_neg fun heq => hlast (by simp [heq, Statement.remembers]))
  refine ⟨gap, run, stop, hscans, ?_, h.statement.ready_intact.2.2.nodup, hbinding, ?_, ?_, ?_⟩
  · rw [hscans.names_statement hready htable hs, List.eraseDups_append,
      Ledger.eraseDups_of_nodup hnodup]
  · intro name hnew hname hlast
    rw [hbinding name hname hlast]
    refine SymbolTable.binding_of_indexOf?_none (Option.not_isSome_iff_eq_none.1 fun hsome => ?_)
    exact hnew (SymbolTable.indexOf?_isSome_iff.1 hsome)
  · rintro value rfl
    exact hready.binding_last htable hs
  · rintro value rfl
    exact hready.assigns hs hscans

/-- An assignment to a constant. Another assignment is a part of its right side, an identifier is
left over, and one more `=` stands behind that. -/
def refusal (draws : Draws α) : Evaluation α :=
  (Session.new "hoc" .silent draws).start (.ofText "\npi = 2 * (x = 3) y = 4; z\n")

theorem reachable_refusal (draws : Draws α) : (refusal draws).Reachable :=
  .start (LineSource.whole_ofText _) .standard

theorem kind_refusal : (refusal (Double.draws 0)).toStatement.current.kind = .name := by
  decide +kernel

/-- The frame of a statement that goes wrong in several ways. -/
theorem Reachable.framed_refusal :
    (refusal (Double.draws 0)).Reachable ∧
      ∃ statement, (refusal (Double.draws 0)).statement.1 = some statement ∧
        ∃ gap run stop, (refusal (Double.draws 0)).Scans gap run stop ∧
          (refusal (Double.draws 0)).Framed run statement := by
  -- it has to be shown that there is a statement; the rest holds of any
  have hreach := reachable_refusal (Double.draws 0)
  have hne : (refusal (Double.draws 0)).toStatement.current.kind ≠ .finish := by
    rw [kind_refusal]
    decide
  have hs := congrArg Prod.fst (statement_of_ne_finish hne)
  exact ⟨hreach, _, hs, hreach.framed hs⟩

end Evaluation

end DeskCalc
