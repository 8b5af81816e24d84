import DeskCalc.Proofs.Acceptance
import DeskCalc.Proofs.Coherence

/-!
# Branches that are never taken

The productions are prepared for a name without a place, for a place that is not in the table, for a
variable that is a function after all, for a call with the wrong number of arguments. None of that
happens, since tokens agree with the table: it makes no difference what is done in these cases.

* `Evaluation.readOr`, `assignOr`, `applyOr` — the operations on names, with something arbitrary
  done where they are prepared for what does not happen.
* `Tree.followOr`, `Sentence.followOr` — reading along a tree by these operations. What the tokens
  bring along is taken from the tokens.
* `Tree.followOr_eq`, `Sentence.followOr_eq` — whatever is done there, the outcome is the same.
* `Evaluation.Occurs.defensive_branches_dead` — so it is at every point of every run.
-/

namespace DeskCalc

variable {α : Type} [Arithmetic α]

/-! ## Operations with something arbitrary -/

namespace Evaluation

section

variable (impossible : Evaluation α → α × Evaluation α)

/-- Goes on with the place that the current token brings along. -/
def placeOr (next : Nat → α × Evaluation α) (e : Evaluation α) : α × Evaluation α :=
  match e.current.symbol? with
  | some index => next index
  | none => impossible e

/-- The value at a place of the table where no function is. -/
def readOr (index : Nat) (e : Evaluation α) : α × Evaluation α :=
  match e.session.table.entry index with
  | .ok ⟨_, .assigned value⟩ | .ok ⟨_, .constant value⟩ => (value, e)
  | .ok ⟨name, .undefined⟩ => e.fail (.undefinedVariable name)
  | .ok ⟨_, .builtIn _⟩ | .error _ => impossible e

/-- Assigns the name at a place of the table, unless it must keep its binding. -/
def assignOr (index : Nat) (value : α) (e : Evaluation α) : α × Evaluation α :=
  match e.session.assign index value with
  | .ok session => (value, { e with session })
  | .error (.immutable name) => e.fail (.symbol (.immutable name))
  | .error (.invalidIndex _ _) => impossible e

/-- Applies the function at a place of the table to as many arguments as it takes. -/
def applyOr (index : Nat) (arguments : List α) (e : Evaluation α) : α × Evaluation α :=
  match e.session.table.get index with
  | .ok (.builtIn f) =>
    if arguments.length = f.arity then
      match f.call? arguments e.session.draws with
      | some (result, draws) => checked result { e with session := { e.session with draws } }
      | none => impossible e
    else impossible e
  | _ => impossible e

/-- Ends a call. -/
def finishCallOr (index : Nat) (arguments : List α) (e : Evaluation α) : α × Evaluation α :=
  if e.current.kind = .rightParen then e.advance.applyOr impossible index arguments
  else e.fail (.expected ")")

/-- Reports that a primary has to be where no primary starts. -/
def missingOr (e : Evaluation α) : α × Evaluation α :=
  if startsPrimary e.current.kind then impossible e else e.fail .primaryExpected

end

end Evaluation

/-- Takes the tokens of the tree and evaluates it on the way. -/
def Tree.followOr (impossible : Evaluation α → α × Evaluation α) :
    {l : Level} → Tree α l → Evaluation α → α × Evaluation α
  | _, .term t, e => t.followOr impossible e
  | _, .sum left op _ right, e =>
    let r := left.followOr impossible e
    let r' := right.followOr impossible r.2.advance
    r'.2.operate op r.1 r'.1
  | _, .factor f, e => f.followOr impossible e
  | _, .product left op _ right, e =>
    let r := left.followOr impossible e
    let r' := right.followOr impossible r.2.advance
    r'.2.operate op r.1 r'.1
  | _, .power p, e => p.followOr impossible e
  | _, .sign negative operand, e =>
    let r := operand.followOr impossible e.advance
    (if negative then -r.1 else r.1, r.2)
  | _, .primary p, e => p.followOr impossible e
  | _, .raise base exponent, e =>
    let r := base.followOr impossible e
    let r' := exponent.followOr impossible r.2.advance
    r'.2.checked (Arithmetic.power r.1 r'.1)
  | _, .number _, e =>
    match e.current.number? with
    | some value => (value, e.advance)
    | none => impossible e
  | _, .name _, e => e.placeOr impossible fun index => e.advance.readOr impossible index
  | _, .assign _ _ _ right, e =>
    e.placeOr impossible fun index =>
      let r := right.followOr impossible e.advance.advance
      r.2.assignOr impossible index r.1
  | _, .paren inner _, e =>
    let r := inner.followOr impossible e.advance
    (r.1, r.2.close)
  | _, .nullary _ _, e =>
    e.placeOr impossible fun index => e.advance.advance.finishCallOr impossible index []
  | _, .unary _ x _, e =>
    e.placeOr impossible fun index =>
      let r := x.followOr impossible e.advance.advance
      r.2.finishCallOr impossible index [r.1]
  | _, .binary _ x y _, e =>
    e.placeOr impossible fun index =>
      let r := x.followOr impossible e.advance.advance
      let r' := y.followOr impossible r.2.advance
      r'.2.finishCallOr impossible index [r.1, r'.1]
  | _, .halfBinary _ x, e =>
    e.placeOr impossible fun _ =>
      (x.followOr impossible e.advance.advance).2.fail (.expected ",")
  | _, .function _ _ _, e => e.placeOr impossible fun _ => e.advance.fail (.expected "(")
  | _, .missing, e => e.missingOr impossible

/-- Takes the tokens of the sentence and evaluates it on the way. -/
def Sentence.followOr (impossible : Evaluation α → α × Evaluation α) (t : Sentence α)
    (e : Evaluation α) : Statement α × Evaluation α :=
  match t with
  | .assignment _ _ _ right =>
    let r := e.placeOr impossible fun index =>
      let r := right.followOr impossible e.advance.advance
      r.2.assignOr impossible index r.1
    (.assignment r.1, r.2)
  | .expression t =>
    let r := t.followOr impossible e
    (.expression r.1, r.2)

/-! ## It makes no difference -/

namespace Evaluation

variable {impossible : Evaluation α → α × Evaluation α} {e : Evaluation α} {index : Nat}
  {name : String}

/-- Whatever a production does, the faces of the table stay where they are. -/
theorem Reaches.face {e e' : Evaluation α} (h : Reaches e e') {face : String × Option Nat}
    (hface : e.session.table.faces[index]? = some face) :
    e'.session.table.faces[index]? = some face := by
  obtain ⟨more, hmore⟩ := h.faces
  have hlt := (List.getElem?_eq_some_iff.1 hface).1
  rw [← hmore, List.getElem?_append_left hlt, hface]

/-- What is known of a name at the front of the run. -/
theorem Settled.face_of_upcoming (hs : e.Settled) {kind : TokenKind} {rest : List (Content α)}
    (h : e.upcoming = (kind, .symbol index) :: rest) :
    ∃ name arity?, e.session.table.faces[index]? = some (name, arity?) ∧
      kind = .ofArity? arity? := by
  have hcoherent := hs.coherent
  rw [(of_upcoming_eq_cons h).2.1] at hcoherent
  exact hcoherent.exists_face

/-- A name brings its place along, so there is a place to go on with. -/
theorem placeOr_eq {kind : TokenKind} {rest : List (Content α)}
    (h : e.upcoming = (kind, .symbol index) :: rest) (next : Nat → α × Evaluation α) :
    e.placeOr impossible next = next index := by
  rw [placeOr, (of_upcoming_eq_symbol h).2]

/-- What is no function can be read, if only to find out that it is undefined. -/
theorem readOr_eq (h : e.session.table.faces[index]? = some (name, none)) :
    e.readOr impossible index = e.read index := by
  obtain ⟨binding, hentry, harity⟩ := SymbolTable.exists_entry_of_face h
  unfold readOr read
  rw [hentry]
  cases binding with
  | undefined => rfl
  | assigned value => rfl
  | constant value => rfl
  -- its face would have an arity
  | builtIn f => cases harity

/-- A place that has a face is in the table, so assigning it fails for its binding alone. -/
theorem assignOr_eq {arity? : Option Nat}
    (h : e.session.table.faces[index]? = some (name, arity?)) (value : α) :
    e.assignOr impossible index value = e.assign index value := by
  obtain ⟨binding, hentry, -⟩ := SymbolTable.exists_entry_of_face h
  -- the place is in the table, so what may be refused is the binding
  have hassign : ∀ i n, e.session.assign index value ≠ .error (.invalidIndex i n) := by
    intro i n
    simp only [Session.assign, SymbolTable.assign, hentry]
    cases binding.isMutable <;> simp [Except.map]
  unfold assignOr assign
  cases ha : e.session.assign index value with
  | ok session => rfl
  | error error =>
    cases error with
    | immutable name => rfl
    | invalidIndex i n => exact absurd ha (hassign i n)

/-- A function is called with as many arguments as its face says that it takes. -/
theorem applyOr_eq {arity? : Option Nat} {arguments : List α}
    (h : e.session.table.faces[index]? = some (name, arity?))
    (hcall : (TokenKind.ofArity? arity?).arity? = some arguments.length) :
    e.applyOr impossible index arguments = e.apply index arguments := by
  obtain ⟨binding, hentry, rfl⟩ := SymbolTable.exists_entry_of_face h
  have hget : e.session.table.get index = .ok binding := by
    simp [SymbolTable.get, hentry, Except.map]
  -- only a built-in function has a token of that kind
  obtain ⟨f, rfl, harity⟩ := (binding.arity?_kind_iff arguments.length).1 hcall
  obtain ⟨r, hr⟩ := (Binding.builtIn f).exists_call? hcall e.session.draws
  have hr' : f.call? arguments e.session.draws = some r := hr
  unfold applyOr apply
  rw [hget]
  simp only [hr, hr', harity, if_true]

/-- The closing parenthesis comes between the arguments and the call, and moves no face. -/
theorem finishCallOr_eq {arity? : Option Nat} {arguments : List α}
    (h : e.session.table.faces[index]? = some (name, arity?))
    (hcall : (TokenKind.ofArity? arity?).arity? = some arguments.length) :
    e.finishCallOr impossible index arguments = e.finishCall index arguments := by
  unfold finishCallOr finishCall
  split
  · next hk =>
    have hmoved : Reaches e e.advance := reaches_advance (by rw [hk]; rfl)
    exact applyOr_eq (hmoved.face h) hcall
  · rfl

end Evaluation

open Evaluation

/-- Whatever is done where the productions are prepared for what does not happen, reading along a
tree that fits comes to the same. -/
theorem Tree.followOr_eq (impossible : Evaluation α → α × Evaluation α) {l : Level} (t : Tree α l)
    {e : Evaluation α} (hs : e.Settled) {rest : List (Content α)}
    (h : e.upcoming = t.yield ++ rest) (hfits : t.Fits (nextKind rest)) :
    t.followOr impossible e = t.follow e := by
  induction t generalizing e rest with
  | term t ih => exact ih hs h hfits.1
  | factor f ih => exact ih hs h hfits
  | power p ih => exact ih hs h hfits.1
  | primary p ih => exact ih hs h hfits.1
  -- two operands: the second one is read where the first one and the operator have led
  | sum left op hop right ihl ihr =>
    obtain ⟨hleft, hright, -⟩ := hfits
    simp only [yield, List.append_assoc, List.cons_append] at h
    have hmoved := left.movesTo_follow h hleft
    have hr := ihr (hmoved.1.settled hs).advance hmoved.advance.2 hright
    simp only [followOr, follow, ihl hs h hleft, hr]
  | product left op hop right ihl ihr =>
    obtain ⟨hleft, hright⟩ := hfits
    simp only [yield, List.append_assoc, List.cons_append] at h
    have hmoved := left.movesTo_follow h hleft
    have hr := ihr (hmoved.1.settled hs).advance hmoved.advance.2 hright
    simp only [followOr, follow, ihl hs h hleft, hr]
  | raise base exponent ihb ihx =>
    obtain ⟨hbase, hexponent⟩ := hfits
    simp only [yield, List.append_assoc, List.cons_append] at h
    have hmoved := base.movesTo_follow h hbase
    have hx := ihx (hmoved.1.settled hs).advance hmoved.advance.2 hexponent
    simp only [followOr, follow, ihb hs h hbase, hx]
  | sign negative operand ih =>
    simp only [followOr, follow, ih hs.advance (movesTo_advance h).2 hfits]
  | number value =>
    obtain ⟨-, hcontent, -⟩ := of_upcoming_eq_cons h
    have hvalue : e.current.number? = some value := by
      rw [Token.number?, show e.current.payload = .number value from congrArg Prod.snd hcontent]
    simp only [followOr, follow, hvalue]
  -- a token of this kind is no function, so its place can be read
  | name index =>
    obtain ⟨name, arity?, hface, hkind⟩ := hs.face_of_upcoming h
    rw [TokenKind.eq_none_of_ofArity?_eq_name hkind.symm] at hface
    rw [followOr, placeOr_eq h]
    exact readOr_eq ((movesTo_advance h).1.face hface)
  | assign kind hkind index right ih =>
    obtain ⟨name, arity?, hface, -⟩ := hs.face_of_upcoming h
    have hstart := (movesTo_advance h).advance
    have hmoved := right.movesTo_follow hstart.2 hfits.1
    rw [followOr, placeOr_eq h]
    simp only [follow, ih hs.advance.advance hstart.2 hfits.1]
    exact assignOr_eq ((hstart.trans hmoved).1.face hface) _
  | paren inner closed ih =>
    obtain ⟨hinner, -, -⟩ := hfits
    simp only [yield, List.append_assoc, List.cons_append] at h
    rw [← nextKind_closing] at hinner
    simp only [followOr, follow, ih hs.advance (movesTo_advance h).2 hinner]
  -- the three kinds of functions say in their token how many arguments they take
  | nullary index closed =>
    obtain ⟨name, arity?, hface, hkind⟩ := hs.face_of_upcoming h
    have hstart := (movesTo_advance h).advance
    rw [followOr, placeOr_eq h]
    exact finishCallOr_eq (hstart.1.face hface) (by rw [← hkind]; rfl)
  | unary index x closed ih =>
    obtain ⟨hx, -, -⟩ := hfits
    simp only [yield, List.append_assoc, List.cons_append] at h
    rw [← nextKind_closing] at hx
    obtain ⟨name, arity?, hface, hkind⟩ := hs.face_of_upcoming h
    have hstart := (movesTo_advance h).advance
    have hmoved := hstart.trans (x.movesTo_follow hstart.2 hx)
    rw [followOr, placeOr_eq h]
    simp only [follow, ih hs.advance.advance hstart.2 hx]
    exact finishCallOr_eq (hmoved.1.face hface) (by rw [← hkind]; rfl)
  | binary index x y closed ihx ihy =>
    obtain ⟨hx, hy, -, -⟩ := hfits
    simp only [yield, List.append_assoc, List.cons_append] at h
    rw [← nextKind_closing] at hy
    obtain ⟨name, arity?, hface, hkind⟩ := hs.face_of_upcoming h
    have hstart := (movesTo_advance h).advance
    have hcomma := hstart.trans (x.movesTo_follow hstart.2 hx)
    have hmoved := hcomma.advance.trans (y.movesTo_follow hcomma.advance.2 hy)
    have hsecond := ihy (hcomma.1.settled hs).advance hcomma.advance.2 hy
    rw [followOr, placeOr_eq h]
    simp only [follow, ihx hs.advance.advance hstart.2 hx, hsecond]
    exact finishCallOr_eq (hmoved.1.face hface) (by rw [← hkind]; rfl)
  | halfBinary index x ih =>
    have hstart := (movesTo_advance h).advance
    rw [followOr, placeOr_eq h]
    simp only [follow, ih hs.advance.advance hstart.2 hfits.1]
  | function kind hkind index =>
    rw [followOr, placeOr_eq h]
    rfl
  | missing =>
    -- the tree has no tokens here, so the current one is the token behind it
    have hkind := e.nextKind_upcoming startsPrimary rfl
    rw [h] at hkind
    have hstart : startsPrimary e.current.kind = false := hkind.symm.trans hfits
    rw [followOr, missingOr, hstart]
    rfl

/-- The same of a whole statement. -/
theorem Sentence.followOr_eq (impossible : Evaluation α → α × Evaluation α) (t : Sentence α)
    {e : Evaluation α} (hs : e.Settled) {rest : List (Content α)}
    (h : e.upcoming = t.yield ++ rest) (hfits : t.Fits (nextKind rest)) :
    t.followOr impossible e = t.follow e := by
  cases t with
  | assignment kind hkind index right =>
    -- as for an assignment inside an expression
    have hassign : (Tree.assign kind hkind index right).followOr impossible e =
        (Tree.assign kind hkind index right).follow e := Tree.followOr_eq impossible _ hs h hfits
    exact congrArg (fun r : α × Evaluation α => (Statement.assignment r.1, r.2)) hassign
  | expression t =>
    rw [followOr, t.followOr_eq impossible hs h hfits.1]
    rfl

/-! ## No place is missing -/

/-- The report does not complain of a place that is not in the table. -/
def Report.KnowsPlace (r : Report) : Prop :=
  ∀ index length, r.problem ≠ .symbol (.invalidIndex index length)

theorem Report.KnowsPlace.of_reading {r : Report} (h : r.ofReading = true) : r.KnowsPlace := by
  intro index length hproblem
  simp [ofReading, kind, hproblem, Problem.kind, ProblemKind.ofReading] at h

namespace Evaluation

/-- What was reported in between knows its places. -/
abbrev Known (e e' : Evaluation α) : Prop := Extends Report.KnowsPlace e.reports e'.reports

omit [Arithmetic α] in
/-- A report of anything else knows its places. -/
theorem known_report {problem : Problem} (h : ∀ i n, problem ≠ .symbol (.invalidIndex i n))
    (e : Evaluation α) : Known e (e.report problem) :=
  e.session.extends_report h

/-- So do the reports of taking a token, which are of reading. -/
theorem known_advance (e : Evaluation α) : Known e e.advance :=
  e.extends_advance.mono fun _ => Report.KnowsPlace.of_reading

theorem known_toStatement (e : Evaluation α) : Known e e.toStatement := by
  fun_induction Evaluation.toStatement e with
  | case1 e _ ih => exact e.known_advance.trans ih
  | case2 e _ => exact e.known_advance

theorem known_checked (result : Except MathError α) (e : Evaluation α) :
    Known e (e.checked result).2 := by
  cases result with
  | ok value => exact .refl _ _
  | error error => exact known_report (by simp) e

/-- Dividing by zero is nothing that places have to do with. -/
theorem known_operate (op : Operator) (left right : α) (e : Evaluation α) :
    Known e (e.operate op left right).2 := by
  unfold operate
  split
  · exact .refl _ _
  · exact .refl _ _
  · exact .refl _ _
  · split
    · exact known_report (by simp) e
    · exact .refl _ _
  · split
    · exact known_report (by simp) e
    · exact .refl _ _

theorem known_close (e : Evaluation α) : Known e e.close := by
  unfold close
  split
  · exact e.known_advance
  · exact known_report (by simp) e

/-- Nothing is reported where the productions are prepared for what does not happen. -/
def silently (e : Evaluation α) : α × Evaluation α := (Arithmetic.nan, e)

/-- Where there is no place nothing is reported, as was chosen. -/
theorem known_placeOr {next : Nat → α × Evaluation α} {e : Evaluation α}
    (h : ∀ index, Known e (next index).2) : Known e (e.placeOr silently next).2 := by
  unfold placeOr
  split
  · exact h _
  · exact .refl _ _

/-- Reading a value reports at most that it is undefined. -/
theorem known_readOr (index : Nat) (e : Evaluation α) : Known e (e.readOr silently index).2 := by
  unfold readOr
  split
  · exact .refl _ _
  · exact .refl _ _
  · exact known_report (by simp) e
  · exact .refl _ _
  · exact .refl _ _

/-- Assigning reports at most that the binding must stay. -/
theorem known_assignOr (index : Nat) (value : α) (e : Evaluation α) :
    Known e (e.assignOr silently index value).2 := by
  unfold assignOr
  split
  -- assigning leaves the log alone
  · next session ha =>
    show Extends _ e.session.log.history.toList session.log.history.toList
    rw [Session.log_assign ha]
    exact .refl _ _
  · exact known_report (by simp) e
  · exact .refl _ _

/-- A call reports at most what the function complains of. -/
theorem known_applyOr (index : Nat) (arguments : List α) (e : Evaluation α) :
    Known e (e.applyOr silently index arguments).2 := by
  unfold applyOr
  split
  · split
    · split
      · exact known_checked _ _
      · exact .refl _ _
    · exact .refl _ _
  · exact .refl _ _

theorem known_finishCallOr (index : Nat) (arguments : List α) (e : Evaluation α) :
    Known e (e.finishCallOr silently index arguments).2 := by
  unfold finishCallOr
  split
  · exact e.known_advance.trans (known_applyOr _ _ _)
  · exact known_report (by simp) e

theorem known_missingOr (e : Evaluation α) : Known e (e.missingOr silently).2 := by
  unfold missingOr
  split
  · exact .refl _ _
  · exact known_report (by simp) e

end Evaluation

/-- With silence where the productions are prepared for what does not happen, no report is of a
place. The induction is on the tree: the reports of its parts, and its own. -/
theorem Tree.known_followOr {l : Level} (t : Tree α l) (e : Evaluation α) :
    Known e (t.followOr silently e).2 := by
  induction t generalizing e with
  | term t ih => exact ih e
  | factor f ih => exact ih e
  | power p ih => exact ih e
  | primary p ih => exact ih e
  | sum left op hop right ihl ihr =>
    exact (((ihl e).trans (known_advance _)).trans (ihr _)).trans (known_operate _ _ _ _)
  | product left op hop right ihl ihr =>
    exact (((ihl e).trans (known_advance _)).trans (ihr _)).trans (known_operate _ _ _ _)
  | raise base exponent ihb ihx =>
    exact (((ihb e).trans (known_advance _)).trans (ihx _)).trans (known_checked _ _)
  | sign negative operand ih => exact e.known_advance.trans (ih _)
  | number value =>
    rw [followOr]
    split
    · exact e.known_advance
    · exact .refl _ _
  -- where its place is missing, silence does nothing, so only the case that it is there is left
  | name index => exact known_placeOr fun _ => e.known_advance.trans (known_readOr _ _)
  | assign kind hkind index right ih =>
    exact known_placeOr fun _ => ((e.known_advance.trans (known_advance _)).trans (ih _)).trans
      (known_assignOr _ _ _)
  | paren inner closed ih => exact (e.known_advance.trans (ih _)).trans (known_close _)
  | nullary index closed =>
    exact known_placeOr fun _ => (e.known_advance.trans (known_advance _)).trans
      (known_finishCallOr _ _ _)
  | unary index x closed ih =>
    exact known_placeOr fun _ => ((e.known_advance.trans (known_advance _)).trans (ih _)).trans
      (known_finishCallOr _ _ _)
  | binary index x y closed ihx ihy =>
    exact known_placeOr fun _ => ((((e.known_advance.trans (known_advance _)).trans (ihx _)).trans
      (known_advance _)).trans (ihy _)).trans (known_finishCallOr _ _ _)
  | halfBinary index x ih =>
    exact known_placeOr fun _ => ((e.known_advance.trans (known_advance _)).trans (ih _)).trans
      (known_report (by simp) _)
  | function kind hkind index =>
    exact known_placeOr fun _ => e.known_advance.trans (known_report (by simp) _)
  | missing => exact e.known_missingOr

/-- The same of a whole statement. -/
theorem Sentence.known_followOr (t : Sentence α) (e : Evaluation α) :
    Known e (t.followOr silently e).2 := by
  cases t with
  -- it reports what the same assignment inside an expression does
  | assignment kind hkind index right =>
    exact (Tree.assign kind hkind index right).known_followOr e
  | expression t => exact t.known_followOr e

/-! ## Every point of every run -/

namespace Evaluation

variable {e : Evaluation α}

/-- What a production does at any point, it does along a tree that fits; so nothing arbitrary shows
in it. -/
theorem Occurs.exists_tree (h : Occurs e) (hready : e.Ready) (l : Level) :
    ∃ (t : Tree α l) (rest : List (Content α)), e.upcoming = t.yield ++ rest ∧
      t.Fits (nextKind rest) ∧ ∀ impossible, e.produce l = t.followOr impossible e := by
  have hs := h.settled hready
  obtain ⟨t, rest, hup, hfits, hstop⟩ := Tree.exists_fits l hs.proper_upcoming
  refine ⟨t, rest, hup, hfits, fun impossible => ?_⟩
  rw [t.followOr_eq impossible hs hup hfits]
  exact produce_eq_of_proceed (t.produce_eq_follow hs hup hfits) (t.movesTo_follow hup hfits) hstop

/-- No production complains of a place that is not in the table. -/
theorem Occurs.known_produce (h : Occurs e) (hready : e.Ready) (l : Level) :
    Known e (e.produce l).2 := by
  obtain ⟨t, -, -, -, hproduce⟩ := h.exists_tree hready l
  rw [hproduce silently]
  exact t.known_followOr e

/-- The same of a statement. -/
theorem Occurs.exists_sentence (h : Occurs e) (hready : e.Ready) :
    ∃ (t : Sentence α) (rest : List (Content α)), e.upcoming = t.yield ++ rest ∧
      t.Fits (nextKind rest) ∧ ∀ impossible, e.body = t.followOr impossible e := by
  have hs := h.settled hready
  obtain ⟨t, rest, hup, hfits⟩ := Sentence.exists_fits hs.proper_upcoming
  refine ⟨t, rest, hup, hfits, fun impossible => ?_⟩
  rw [t.followOr_eq impossible hs hup hfits]
  exact t.body_eq_follow hs hup hfits

/-- Nor does any statement. -/
theorem Occurs.known_statement (h : Occurs e) (hready : e.Ready) : Known e e.statement.2 := by
  have hstart := e.known_toStatement
  by_cases hk : e.toStatement.current.kind = .finish
  · rw [statement_of_finish hk]
    exact hstart
  · obtain ⟨t, -, -, -, hbody⟩ :=
      h.toStatement.exists_sentence hready.settled_toStatement.ready
    have hknown := t.known_followOr e.toStatement
    rw [← hbody silently] at hknown
    -- its end reports what is left over, and what is skipped may be no token
    have hconclude : Known e.toStatement.body.2
        (e.toStatement.body.2.conclude e.toStatement.session.errorCount) := by
      refine (extends_conclude _ _).mono fun r hr => ?_
      rcases hr with hr | hr
      · exact Report.KnowsPlace.of_reading hr
      · simp [Report.KnowsPlace, hr]
    rw [statement_of_ne_finish hk]
    refine (hstart.trans hknown).trans ?_
    have hbody := h.toStatement.of_reaches hready.settled_toStatement.reaches_body
    show Extends _ _ (Evaluation.rememberStatement _ _).reports
    rw [reports_rememberStatement _ (hbody.conclude _).buffered.table]
    exact hconclude

/-- At every point of every run, the tokens agree with the table. So it makes no difference what the
productions and the statements that start there do where they are prepared for the contrary, and
nothing that is reported complains of a place that is not in the table. -/
theorem Occurs.defensive_branches_dead (h : Occurs e) :
    (∀ token, token = e.current ∨ e.stream.lookahead = some token →
      e.session.table.Backs token) ∧
    (e.Ready →
      (∀ l, ∃ (t : Tree α l) (rest : List (Content α)), e.upcoming = t.yield ++ rest ∧
        t.Fits (nextKind rest) ∧ ∀ impossible, e.produce l = t.followOr impossible e) ∧
      (∃ (t : Sentence α) (rest : List (Content α)), e.upcoming = t.yield ++ rest ∧
        t.Fits (nextKind rest) ∧ ∀ impossible, e.body = t.followOr impossible e) ∧
      (∀ l, ∀ r ∈ e.since (e.produce l).2, r.KnowsPlace) ∧
      ∀ r ∈ e.since e.statement.2, r.KnowsPlace) :=
  -- reports are bounded by following with silence, which the productions do no more than
  ⟨fun _ => h.backs, fun hready => ⟨h.exists_tree hready, h.exists_sentence hready,
    fun l _ => of_mem_since (h.known_produce hready l),
    fun _ => of_mem_since (h.known_statement hready)⟩⟩

/-- A call whose second argument is an assignment, with a token too many behind it; its first token
was taken. -/
def insideCall (draws : Draws α) : Evaluation α :=
  (start (.ofText "atan2(1, x = last) x") (Session.new "hoc" .silent draws)).advance

/-- At the opening parenthesis of a call one of whose arguments is an assignment, with a name too
many behind the call. -/
theorem Occurs.defensive_branches_dead_insideCall :
    Occurs (insideCall (Double.draws 0)) ∧ (insideCall (Double.draws 0)).Ready ∧
      (insideCall (Double.draws 0)).session.table.Backs (insideCall (Double.draws 0)).current ∧
      ∀ r ∈ (insideCall (Double.draws 0)).since (insideCall (Double.draws 0)).expression.2,
        r.KnowsPlace := by
  have hoccurs : Occurs (insideCall (Double.draws 0)) := (Occurs.start _ .standard).advance
  have hready : (insideCall (Double.draws 0)).Ready := (ready_start _ _).settled_advance.ready
  obtain ⟨hbacks, hrun⟩ := hoccurs.defensive_branches_dead
  exact ⟨hoccurs, hready, hbacks _ (Or.inl rfl), (hrun hready).2.2.1 .expression⟩

end Evaluation

end DeskCalc
